import SeaOfNodes.Proofs.Graph.Nodes
import SeaOfNodes.Proofs.Schedule.Stages

namespace SeaOfNodes

open List Placement

variable {id : NodeId} {node : Node} {ids : List NodeId}

namespace Operator

def continues (op : Operator) : Bool := op.isControl && !op.isTerminator

theorem starts_of_free (op : Operator) (control : op.isControl) (free : op.layout.controls = 0) : op.startsBlock := by
  cases op with
  | control kind => cases kind <;> simp_all [isControl, outputs, startsBlock, layout, ControlOp.layout, InputLayout.plain]
  | create request => cases request <;> simp [layout, Creation.layout, InputLayout.creation] at free
  | _ => simp_all [isControl, outputs, layout]

theorem control_not_phi (op : Operator) (control : op.isControl) : op.isPhi = false := by
  cases op with
  | phi representation count => cases control
  | effectPhi count => cases control
  | _ => rfl

end Operator

namespace Graph

theorem control_input_eq_ok (graph : Graph) (read : graph.node? id = some node) (fits : node.op.fits)
    (counted : node.inputs.length = node.op.layout.total) (input : NodeId) :
    graph.controlInput id = .ok input ↔ (controlInputs node).head? = some input := by
  simp only [controlInput, bind_eq_ok, layout_eq_ok, require_eq_ok, input_eq_ok, decide_eq_true_eq]
  rw [head?_eq_getElem?, controlInputs, getElem?_drop]
  constructor
  · rintro ⟨layout, ⟨_, again, _, rfl⟩, _, _, _, once, found⟩
    rw [read] at again once
    cases again
    cases once
    exact found
  · intro found
    have bound := (List.getElem?_eq_some_iff.mp found).1
    rw [counted, InputLayout.total] at bound
    exact ⟨_, ⟨node, read, fits, rfl⟩, (), by omega, node, read, found⟩

end Graph

namespace Placement

theorem find_put (placement : Placement) (id other : NodeId) (block : BlockId) : (placement.put id block).find? other =
      if other = id ∧ id < placement.size then some block else placement.find? other := by
  by_cases same : other = id
  · by_cases inside : id < placement.size
    · simp [put, find?, same, inside]
    · simp [put, find?, same, inside]
  · simp [put, find?, same, Ne.symm same]

theorem size_put (placement : Placement) (id : NodeId) (block : BlockId) : (placement.put id block).size = placement.size :=
  Array.size_setIfInBounds

def Extends (placement after : Placement) : Prop :=
  ∀ id block, placement.find? id = some block → after.find? id = some block

theorem extends_put (placement : Placement) (block : BlockId) (bare : placement.find? id = none) :
    placement.Extends (placement.put id block) := by
  intro other found read
  rw [find_put, if_neg]
  · exact read
  · rintro ⟨same, _⟩
    rw [same, bare] at read
    cases read

theorem extends_some (placement : Placement) {after : Placement} (wider : placement.Extends after)
    (present : (placement.find? id).isSome) : (after.find? id).isSome := by
  obtain ⟨block, found⟩ := Option.isSome_iff_exists.mp present
  rw [wider id block found]
  rfl

end Placement

inductive Home (graph : Graph) (starts : List NodeId) : NodeId → BlockId → Prop where
  | start (id : NodeId) (block : BlockId) (read : starts[block]? = some id) : Home graph starts id block
  | pass (id previous : NodeId) (node : Node) (block : BlockId) (inner : id ∉ starts) (read : graph.node? id = some node)
      (first : (Graph.controlInputs node).head? = some previous) (rest : Home graph starts previous block) :
      Home graph starts id block

theorem home_unique {graph : Graph} {starts : List NodeId} (distinct : starts.Nodup) {a b : BlockId}
    (one : Home graph starts id a) (other : Home graph starts id b) : a = b := by
  induction one with
  | start id a read =>
    cases other with
    | start _ _ again =>
      obtain ⟨first, here⟩ := List.getElem?_eq_some_iff.mp read
      obtain ⟨second, there⟩ := List.getElem?_eq_some_iff.mp again
      exact distinct.getElem_inj_iff.mp (here.trans there.symm)
    | pass _ _ _ _ inner => exact absurd (mem_of_getElem? read) inner
  | pass id previous node a inner read first _ ih =>
    cases other with
    | start _ _ again => exact absurd (mem_of_getElem? again) inner
    | pass _ _ _ _ _ again second rest =>
      rw [read] at again
      cases again
      rw [first] at second
      cases second
      exact ih rest

def Graph.blockStarts (graph : Graph) (ids : List NodeId) : List NodeId :=
  ids.filter fun id => (graph.node? id).any fun node => node.op.startsBlock

theorem mem_block_starts {graph : Graph} {ids : List NodeId} (read : graph.node? id = some node) :
    id ∈ graph.blockStarts ids ↔ id ∈ ids ∧ node.op.startsBlock := by
  simp [Graph.blockStarts, mem_filter, read]

-- Before floating nodes are placed, a node is only ever placed at its home, and all starts are.
structure AtHome (graph : Graph) (starts : List NodeId) (placement : Placement) : Prop where
  sized : placement.size = graph.size
  started : ∀ (block : BlockId) (id : NodeId), starts[block]? = some id → placement.find? id = some block
  homes : ∀ (id : NodeId) (block : BlockId), placement.find? id = some block → Home graph starts id block

section

variable {graph : Graph} {ids : List NodeId} (distinct : ids.Nodup) {placement : Placement}
  (atHome : AtHome graph (graph.blockStarts ids) placement)

include distinct in
theorem block_starts_nodup : (graph.blockStarts ids).Nodup := distinct.filter _

include atHome in
theorem unplaced_inner (member : id ∈ ids) (read : graph.node? id = some node) (unplaced : placement.find? id = none) :
    id ∉ graph.blockStarts ids ∧ node.op.startsBlock = false := by
  have inner : id ∉ graph.blockStarts ids := by
    intro start
    obtain ⟨block, place⟩ := getElem?_of_mem start
    rw [atHome.started block id place] at unplaced
    cases unplaced
  refine ⟨inner, ?_⟩
  rw [mem_block_starts read] at inner
  simpa [member] using inner

include distinct atHome in
theorem at_home_put {block : BlockId} (home : Home graph (graph.blockStarts ids) id block) :
    AtHome graph (graph.blockStarts ids) (placement.put id block) := by
  refine ⟨(placement.size_put id block).trans atHome.sized, ?_, ?_⟩
  · intro other start read
    rw [find_put]
    split
    · rename_i same
      exact congrArg some (home_unique (block_starts_nodup distinct) home (same.1 ▸ .start start other read))
    · exact atHome.started other start read
  · intro other found read
    rw [find_put] at read
    split at read
    · rename_i same
      cases read
      exact same.1 ▸ home
    · exact atHome.homes other found read

end

theorem put_entries {entries : List (NodeId × BlockId)} {placement : Placement} (after : Placement)
    (distinct : (entries.map Prod.fst).Nodup) (inside : ∀ entry ∈ entries, entry.1 < placement.size)
    (put : entries.foldl (fun placement (start, block) => placement.put start block) placement = after) :
    after.size = placement.size ∧ (∀ entry ∈ entries, after.find? entry.1 = some entry.2) ∧
      ∀ id, id ∉ entries.map Prod.fst → after.find? id = placement.find? id := by
  induction entries generalizing placement with
  | nil =>
    subst put
    exact ⟨rfl, by simp, fun _ _ => rfl⟩
  | cons entry rest ih =>
    obtain ⟨start, block⟩ := entry
    obtain ⟨fresh, others⟩ := nodup_cons.mp distinct
    have here : start < placement.size := inside (start, block) mem_cons_self
    obtain ⟨sized, listed, unlisted⟩ := ih others (fun entry member => by
      rw [size_put]
      exact inside entry (mem_cons_of_mem _ member)) put
    refine ⟨sized.trans (placement.size_put start block), ?_, ?_⟩
    · intro entry member
      rcases mem_cons.mp member with same | later
      · subst same
        rw [unlisted start fresh, find_put, if_pos ⟨rfl, here⟩]
      · exact listed entry later
    · intro id absent
      rw [map_cons, mem_cons, not_or] at absent
      rw [unlisted id absent.2, find_put, if_neg (fun same => absent.1 same.1)]

def Graph.startPlacement (graph : Graph) (ids : List NodeId) : Placement :=
  (graph.blockStarts ids).zipIdx.foldl (fun placement (start, block) => placement.put start block)
    (Array.replicate graph.size none)

theorem start_placement_find (graph : Graph) (distinct : ids.Nodup) : (graph.startPlacement ids).size = graph.size ∧
      ∀ id block, (graph.startPlacement ids).find? id = some block ↔ (graph.blockStarts ids)[block]? = some id := by
  have names : (graph.blockStarts ids).zipIdx.map Prod.fst = graph.blockStarts ids := zipIdx_map_fst 0 _
  have inside : ∀ entry ∈ (graph.blockStarts ids).zipIdx,
      entry.1 < (Array.replicate graph.size (none : Option BlockId)).size := by
    intro entry member
    have start : entry.1 ∈ graph.blockStarts ids := names ▸ mem_map_of_mem member
    obtain ⟨node, read, _⟩ := (Option.any_eq_true _ _).mp (mem_filter.mp start).2
    simpa using graph.node_lt read
  obtain ⟨sized, listed, unlisted⟩ := put_entries (graph.startPlacement ids)
    (by rw [names]; exact block_starts_nodup distinct) inside rfl
  refine ⟨by simpa using sized, fun id block => ⟨?_, ?_⟩⟩
  · intro found
    by_cases start : id ∈ (graph.blockStarts ids).zipIdx.map Prod.fst
    · obtain ⟨entry, member, rfl⟩ := mem_map.mp start
      rw [listed entry member] at found
      cases found
      exact mem_zipIdx_iff_getElem?.mp member
    · rw [unlisted id start] at found
      rw [Placement.find?, Array.getElem?_replicate] at found
      split at found <;> cases found
  · intro read
    exact listed (id, block) (mem_zipIdx_iff_getElem?.mpr read)

theorem at_home_starts (graph : Graph) (distinct : ids.Nodup) :
    AtHome graph (graph.blockStarts ids) (graph.startPlacement ids) := by
  obtain ⟨sized, spec⟩ := start_placement_find graph distinct
  refine ⟨sized, ?_, ?_⟩
  · intro block id read
    exact (spec id block).mpr read
  · intro id block found
    exact .start id block ((spec id block).mp found)

end SeaOfNodes
