import SeaOfNodes.Proofs.Outcome

namespace SeaOfNodes

open List

variable {graph : Graph} {placement : Placement}

namespace Flow

variable {jumps : List Jump}

theorem jumps_into_target {start : NodeId} {target : BlockId} {after : Placement} {inputs index : Nat}
    (found : jumpsInto graph start target placement inputs index = .ok (jumps, after)) :
    ∀ jump ∈ jumps, jump.target = target := by
  induction inputs generalizing placement index jumps with
  | zero =>
    cases found
    simp
  | succ inputs ih =>
    simp only [jumpsInto, bind_eq_ok, pure_eq_ok] at found
    obtain ⟨control, _, ⟨source, placed⟩, _, op, _, ⟨further, final⟩, rest, same⟩ := found
    cases same
    exact forall_mem_cons.mpr ⟨rfl, ih rest⟩

theorem all_jumps_target {starts : List (NodeId × BlockId)} {after : Placement}
    (found : allJumps graph starts placement = .ok (jumps, after)) : ∀ jump ∈ jumps, ∃ start, (start, jump.target) ∈ starts := by
  induction starts generalizing placement jumps with
  | nil =>
    cases found
    simp
  | cons first rest ih =>
    obtain ⟨start, target⟩ := first
    simp only [allJumps, bind_eq_ok, pure_eq_ok] at found
    obtain ⟨layout, _, ⟨own, middle⟩, here, ⟨further, final⟩, later, same⟩ := found
    cases same
    intro jump member
    rcases mem_append.mp member with mine | others
    · refine ⟨start, ?_⟩
      rw [jumps_into_target here jump mine]
      exact mem_cons_self
    · obtain ⟨other, inside⟩ := ih later jump others
      exact ⟨other, mem_cons_of_mem _ inside⟩

theorem mem_successors (flow : Flow) (block next : BlockId) :
    next ∈ flow.successors block ↔ ∃ jump ∈ flow.jumps, jump.source = block ∧ jump.target = next := by
  simp [successors, mem_filterMap]

theorem mem_predecessors (flow : Flow) (block previous : BlockId) :
    previous ∈ flow.predecessors block ↔ block ∈ flow.successors previous := by
  simp only [mem_successors, predecessors, mem_filterMap]
  constructor
  · rintro ⟨jump, member, chosen⟩
    split at chosen
    · cases chosen
      exact ⟨jump, member, rfl, ‹_›⟩
    · cases chosen
  · rintro ⟨jump, member, source, target⟩
    exact ⟨jump, member, by rw [if_pos target, source]⟩

theorem of_graph_target {ids : List NodeId} {flow : Flow} (flowed : ofGraph graph ids = .ok (flow, placement))
    {block next : BlockId} (leads : next ∈ flow.successors block) : next < flow.size := by
  simp only [ofGraph, bind_eq_ok, pure_eq_ok] at flowed
  obtain ⟨⟨jumps, middle⟩, jumped, ⟨exits, final⟩, _, same⟩ := flowed
  cases same
  obtain ⟨jump, member, _, target⟩ := (mem_successors _ block next).mp leads
  obtain ⟨start, inside⟩ := all_jumps_target jumped jump member
  have bound := snd_lt_of_mem_zipIdx inside
  rw [target] at bound
  simpa [size] using bound

end Flow

namespace Schedule

variable {empty : List (Block × BlockId)} {blocks : List Block}

structure Stages (graph : Graph) (schedule : Schedule) (ids : List NodeId) (flow : Flow) (initial fixed : Placement) :
    Prop where
  gathered : graph.schedulable = .ok ids
  flowed : Flow.ofGraph graph ids = .ok (flow, initial)
  entered : flow.starts.idxOf? Graph.start = some schedule.entry
  ordered : schedule.order = flow.order schedule.entry
  dominated : DominatorTree.build (flow.positionsBefore schedule.order) schedule.order.length = .ok schedule.dominators
  pinned : ∃ pinned, ids.filterM (isFixed graph) = .ok pinned ∧ pinned.foldlM (placeFixed graph) initial = .ok fixed
  floated : placeFloating graph (emptyBlocks flow schedule.order schedule.dominators) schedule.entry ids
    (List.range graph.size) fixed = .ok schedule.placement
  placed : ∀ id ∈ ids, (schedule.placement.find? id).isSome
  filled : orderBlocks graph schedule.placement ids
    (emptyBlocks flow schedule.order schedule.dominators).toList.zipIdx (List.range graph.size) = .ok schedule.blocks.toList

theorem of_graph_stages {graph : Graph} {schedule : Schedule} (accepted : ofGraph graph = .ok schedule) :
    ∃ ids flow initial fixed, Stages graph schedule ids flow initial fixed := by
  rw [ofGraph] at accepted
  simp only [bind_eq_ok, of_faulty_eq_ok, present_eq_ok] at accepted
  obtain ⟨ids, gathered, ⟨flow, initial⟩, flowed, entry, entered, dominators, dominated, pinned, filtered, fixed, folded,
    placement, floated, final⟩ := accepted
  cases missing : ids.find? fun id => (placement.find? id).isNone with
  | some id =>
    rw [missing] at final
    cases final
  | none =>
    rw [missing] at final
    simp only [bind_eq_ok, pure_eq_ok] at final
    obtain ⟨blocks, filled, same⟩ := final
    subst same
    refine ⟨ids, flow, initial, fixed, gathered, flowed, entered, rfl, dominated, ⟨pinned, filtered, folded⟩, floated, ?_, filled⟩
    intro id member
    have present := find?_eq_none.mp missing id member
    exact Option.isSome_iff_ne_none.mpr fun bare => present (Option.isNone_iff_eq_none.mpr bare)

-- Only the nodes of a block are filled in.
theorem order_blocks_filled {ids unvisited : List NodeId} (filled : orderBlocks graph placement ids empty unvisited = .ok blocks) :
    Forall₂ (fun entry block => ∃ nodes, block = { entry.1 with nodes := nodes }) empty blocks := by
  induction empty generalizing unvisited blocks with
  | nil =>
    cases filled
    exact .nil
  | cons first rest ih =>
    simp only [orderBlocks, bind_eq_ok, pure_eq_ok] at filled
    obtain ⟨⟨left, nodes⟩, _, further, later, same⟩ := filled
    cases same
    exact .cons ⟨nodes, rfl⟩ (ih later)

namespace Stages

variable {id : BlockId} {graph : Graph} {schedule : Schedule} {ids : List NodeId} {flow : Flow} {initial fixed : Placement}
  (stages : Stages graph schedule ids flow initial fixed)

include stages

theorem size_blocks : schedule.blocks.size = flow.size := by
  have same := (order_blocks_filled stages.filled).length_eq.symm
  simpa [emptyBlocks, Flow.size] using same

theorem at_block {related : Block × BlockId → Block → Prop} (inside : id < flow.size)
    (all : Forall₂ related (emptyBlocks flow schedule.order schedule.dominators).toList.zipIdx schedule.blocks.toList) :
    ∃ empty block, (emptyBlocks flow schedule.order schedule.dominators)[id]? = some empty ∧ schedule.block? id = some block ∧
      related (empty, id) block := by
  have bound : id < (emptyBlocks flow schedule.order schedule.dominators).size := by
    simpa [emptyBlocks, Flow.size] using inside
  have there := stages.size_blocks ▸ inside
  have here := all.get (i := id) (by simpa using bound) there
  exact ⟨_, _, Array.getElem?_eq_getElem bound, Array.getElem?_eq_getElem there, by simpa using here⟩

theorem block_fields (inside : id < flow.size) :
    ∃ empty nodes, (emptyBlocks flow schedule.order schedule.dominators)[id]? = some empty ∧
      schedule.block? id = some { empty with nodes := nodes } := by
  obtain ⟨empty, _, read, filled, nodes, rfl⟩ := stages.at_block inside (order_blocks_filled stages.filled)
  exact ⟨empty, nodes, read, filled⟩

theorem entry_start : flow.starts[schedule.entry]? = some Graph.start := by
  have entered := stages.entered
  rw [← flow.starts.toArray_toList, idxOf?_toArray, idxOf?_eq_some_iff] at entered
  obtain ⟨bound, read, _⟩ := entered
  rw [← Array.getElem?_toList, getElem?_eq_getElem bound, read]

theorem entry_inside : schedule.entry < flow.size :=
  (Array.getElem?_eq_some_iff.mp stages.entry_start).1

theorem block_successors (inside : id < flow.size) :
    ∃ block, schedule.block? id = some block ∧ block.successors = flow.successors id := by
  obtain ⟨empty, nodes, read, filled⟩ := stages.block_fields inside
  simp only [emptyBlocks, Array.getElem?_mapIdx, Option.map_eq_some_iff] at read
  obtain ⟨start, _, same⟩ := read
  exact ⟨_, filled, same ▸ rfl⟩

end Stages

end Schedule

end SeaOfNodes
