import SeaOfNodes.Proofs.Dominators.Routes
import SeaOfNodes.Proofs.Schedule.Grounded

/-! The numbering of the blocks. -/

namespace SeaOfNodes

open List

theorem before_lt {ids : List Nat} (distinct : ids.Nodup) {a b i j : Nat} (before : Before ids a b)
    (first : ids[i]? = some a) (second : ids[j]? = some b) : i < j := by
  obtain ⟨front, back, rfl, member⟩ := before
  obtain ⟨k, bound, place⟩ := getElem_of_mem member
  have here : (front ++ b :: back)[k]? = some a := by
    rw [getElem?_append_left bound, getElem?_eq_getElem bound, place]
  have there : (front ++ b :: back)[front.length]? = some b := by simp
  rw [← idx_of_eq_some distinct] at first second here there
  have left : i = k := Option.some.inj (first.symm.trans here)
  have right : j = front.length := Option.some.inj (second.symm.trans there)
  omega

theorem home_inside {graph : Graph} {starts : List NodeId} {id : NodeId} {block : BlockId}
    (home : Home graph starts id block) : block < starts.length := by
  induction home with
  | start id block read => exact (List.getElem?_eq_some_iff.mp read).1
  | pass id previous node block _ _ _ _ ih => exact ih

namespace Flow

theorem count_successors (flow : Flow) (a b : BlockId) :
    (flow.successors a).count b = flow.jumps.countP fun jump => jump.source = a ∧ jump.target = b := by
  rw [successors, count_filterMap]
  refine countP_congr fun jump _ => ?_
  by_cases leaves : jump.source = a
  · simp [leaves]
  · simp [leaves]

theorem count_predecessors (flow : Flow) (a b : BlockId) :
    (flow.predecessors b).count a = flow.jumps.countP fun jump => jump.source = a ∧ jump.target = b := by
  rw [predecessors, count_filterMap]
  refine countP_congr fun jump _ => ?_
  by_cases enters : jump.target = b
  · simp [enters]
  · simp [enters]

theorem of_graph_source {graph : Graph} {ids : List NodeId} {flow : Flow} {placement : Placement}
    (distinct : ids.Nodup) (needed : ∀ id ∈ ids, graph.Needed id)
    (flowed : ofGraph graph ids = .ok (flow, placement)) {jump : Jump} (member : jump ∈ flow.jumps) :
    jump.source < flow.size := by
  simp only [ofGraph, bind_eq_ok, pure_eq_ok] at flowed
  obtain ⟨⟨jumps, middle⟩, jumped, ⟨exits, final⟩, _, same⟩ := flowed
  cases same
  obtain ⟨grounded, _, sources⟩ := all_jumps_grounded distinct (start_grounded distinct needed) (fun entry inside => needed entry.1
      (mem_filter.mp (mem_of_getElem? (mem_zipIdx_iff_getElem?.mp inside))).1) jumped
  obtain ⟨control, placed, _⟩ := sources jump member
  have inside := home_inside (grounded.homes control jump.source placed)
  simpa [size, Graph.blockStarts] using inside

end Flow

namespace Schedule

namespace Stages

variable {id : BlockId} {block : Block} {graph : Graph} {schedule : Schedule} {ids : List NodeId} {flow : Flow}
  {initial fixed : Placement} (stages : Stages graph schedule ids flow initial fixed)

include stages

theorem block_inside (read : schedule.block? id = some block) : id < flow.size := by
  rw [← stages.size_blocks]
  exact (Array.getElem?_eq_some_iff.mp read).1

theorem block_flow (read : schedule.block? id = some block) :
    block.successors = flow.successors id ∧ block.predecessors = flow.predecessors id ∧
      block.position = schedule.order.idxOf? id := by
  obtain ⟨empty, nodes, place, filled⟩ := stages.block_fields (stages.block_inside read)
  simp only [emptyBlocks, Array.getElem?_mapIdx, Option.map_eq_some_iff] at place
  obtain ⟨start, _, rfl⟩ := place
  rw [read] at filled
  cases filled
  exact ⟨rfl, rfl, rfl⟩

theorem source_inside {a b : BlockId} (leads : b ∈ flow.successors a) : a < flow.size := by
  obtain ⟨jump, member, rfl, _⟩ := (flow.mem_successors a b).mp leads
  exact Flow.of_graph_source stages.ids_nodup stages.ids_needed stages.flowed member

theorem leads_eq : schedule.Leads = fun a b => b ∈ flow.successors a := by
  ext a b
  constructor
  · rintro ⟨block, read, member⟩
    exact (stages.leads_iff b (stages.block_inside read)).mp ⟨block, read, member⟩
  · intro leads
    exact (stages.leads_iff b (stages.source_inside leads)).mpr leads

theorem mem_order (id : BlockId) : id ∈ schedule.order ↔ Relation.ReflTransGen schedule.Leads schedule.entry id := by
  rw [stages.ordered, Flow.order, mem_reverse_postorder _ _ _ stages.closed, stages.leads_eq]

theorem position_iff (position : Nat) (id : BlockId) : schedule.order[position]? = some id ↔
    ∃ block, schedule.block? id = some block ∧ block.position = some position := by
  rw [← idx_of_eq_some stages.distinct]
  constructor
  · intro place
    have member := mem_of_getElem? ((idx_of_eq_some stages.distinct id position).mp place)
    obtain ⟨_, nodes, _, read⟩ := stages.block_fields (stages.order_inside member)
    exact ⟨_, read, (stages.block_flow read).2.2.trans place⟩
  · rintro ⟨block, read, place⟩
    rw [← (stages.block_flow read).2.2, place]

theorem neighbours_inside (a b : BlockId) (block : Block) (read : schedule.block? a = some block)
    (member : b ∈ block.successors ++ block.predecessors) : ∃ other, schedule.block? b = some other := by
  obtain ⟨successors, predecessors, _⟩ := stages.block_flow read
  have inside : b < flow.size := by
    rw [successors, predecessors, mem_append, Flow.mem_predecessors] at member
    rcases member with after | before
    · exact stages.closed a b after
    · exact stages.source_inside before
  obtain ⟨_, _, _, other⟩ := stages.block_fields inside
  exact ⟨_, other⟩

theorem count_mirrored {a b : BlockId} {block other : Block} (first : schedule.block? a = some block)
    (second : schedule.block? b = some other) : block.successors.count b = other.predecessors.count a := by
  rw [(stages.block_flow first).1, (stages.block_flow second).2.1, flow.count_successors, flow.count_predecessors]

theorem retreat_closes (i j u v : Nat) (first : schedule.order[i]? = some u) (second : schedule.order[j]? = some v)
    (leads : schedule.Leads u v) (back : j ≤ i) : Relation.ReflTransGen schedule.Leads v u := by
  rw [stages.leads_eq] at leads ⊢
  have member := mem_of_getElem? first
  rw [stages.ordered] at member
  refine (reverse_postorder_edge flow.successors flow.size schedule.entry member leads
    (stages.closed u v leads)).resolve_right fun before => ?_
  have distinct := stages.distinct
  rw [stages.ordered] at distinct first second
  have forward := before_lt distinct before first second
  omega

end Stages

end Schedule

theorem blocks_numbered_in_reverse_postorder (graph : Graph) (schedule : Schedule)
    (accepted : Schedule.ofGraph graph = .ok schedule) :
    schedule.order.Nodup ∧ schedule.order.head? = some schedule.entry ∧
      (∀ id, id ∈ schedule.order ↔ Relation.ReflTransGen schedule.Leads schedule.entry id) ∧
      (∀ position id, schedule.order[position]? = some id ↔
        ∃ block, schedule.block? id = some block ∧ block.position = some position) ∧
      (∀ a block, schedule.block? a = some block →
        (∀ b ∈ block.successors ++ block.predecessors, ∃ other, schedule.block? b = some other) ∧
        ∀ b other, schedule.block? b = some other → block.successors.count b = other.predecessors.count a) ∧
      ∀ (i j : Nat) (u v : BlockId), schedule.order[i]? = some u → schedule.order[j]? = some v → schedule.Leads u v →
        j ≤ i → Relation.ReflTransGen schedule.Leads v u := by
  obtain ⟨ids, flow, initial, fixed, stages⟩ := Schedule.of_graph_stages accepted
  have first : schedule.order.head? = some schedule.entry := by
    rw [stages.ordered, head?_eq_getElem?]
    exact flow.order_first schedule.entry
  exact ⟨stages.distinct, first, stages.mem_order, stages.position_iff,
    fun a block read => ⟨fun b => stages.neighbours_inside a b block read, fun b other => stages.count_mirrored read⟩,
    stages.retreat_closes⟩

def Graph.tangledLoops : Graph :=
  { Graph.empty with
    nodes := ⟨#[
      { op := .control .start, inputs := [] },
      { op := .control (.stop 1), inputs := [8] },
      { op := .constant (.int32 1), inputs := [] },
      { op := .control (.loop 4), inputs := [0, 5, 5, 7] },
      { op := .control .branch, inputs := [2, 3] },
      { op := .control .ifTrue, inputs := [4] },
      { op := .control .ifFalse, inputs := [4] },
      { op := .control (.loop 1), inputs := [7] },
      { op := .control (.ret 1), inputs := [2, 2, 0, 6] }]⟩ }

theorem tangled_loops_numbered : ∃ schedule header body, Schedule.ofGraph .tangledLoops = .ok schedule ∧
    schedule.order = [0, 1, 3, 2] ∧ ¬ Relation.ReflTransGen schedule.Leads schedule.entry 4 ∧
    schedule.block? 1 = some header ∧ schedule.block? 2 = some body ∧ body.successors = [1, 1] ∧
    header.predecessors.count 2 = 2 ∧ schedule.Leads 2 1 ∧ Relation.ReflTransGen schedule.Leads 1 2 := by
  obtain ⟨schedule, accepted, checked⟩ := scheduled_check .tangledLoops (fun schedule =>
    (schedule.order, schedule.blocks.toList.map Block.successors) =
      ([0, 1, 3, 2], [[1], [2, 3], [1, 1], [], [1, 4]])) (by cbv)
  obtain ⟨order, successors⟩ := Prod.mk.inj (of_decide_eq_true checked)
  obtain ⟨body, read, twice⟩ : ∃ body, schedule.block? 2 = some body ∧ body.successors = [1, 1] := by
    rw [← Option.map_eq_some_iff, Schedule.block?, ← Array.getElem?_toList, ← getElem?_map, successors]
    rfl
  have leads : schedule.Leads 2 1 := ⟨body, read, by simp [twice]⟩
  obtain ⟨_, _, reached, _, mirrored, closes⟩ := blocks_numbered_in_reverse_postorder .tangledLoops schedule accepted
  obtain ⟨neighbours, counts⟩ := mirrored 2 body read
  obtain ⟨header, first⟩ := neighbours 1 (by simp [twice])
  refine ⟨schedule, header, body, accepted, order, ?_, first, read, twice, ?_, leads, ?_⟩
  · rw [← reached 4, order]
    decide
  · rw [← counts 1 header first, twice]
    rfl
  · exact closes 3 1 2 1 (by simp [order]) (by simp [order]) leads (by decide)

end SeaOfNodes
