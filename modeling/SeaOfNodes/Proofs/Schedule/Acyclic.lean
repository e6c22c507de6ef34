import SeaOfNodes.Proofs.Schedule.Endings
import SeaOfNodes.Proofs.Schedule.Numbered

/-! The cycles that the scheduler finds. -/

namespace SeaOfNodes

open List

namespace Schedule

variable {id : NodeId} {block : BlockId}

theorem value_block_placed {graph : Graph} {blocks : Array Block} {placement : Placement}
    (found : valueBlock? graph blocks placement id = some block) :
    (∃ own, placement.find? id = some own) ∧ ∃ other, placement.find? other = some block := by
  simp only [valueBlock?, bind, Option.bind_eq_some_iff] at found
  obtain ⟨own, here, rest⟩ := found
  refine ⟨⟨own, here⟩, ?_⟩
  split at rest
  · split at rest
    · exact ⟨_, rest⟩
    · exact ⟨id, here.trans rest⟩
  · exact ⟨id, here.trans rest⟩

namespace Stages

variable {graph : Graph} {schedule : Schedule} {ids : List NodeId} {flow : Flow} {initial fixed : Placement}
  (stages : Stages graph schedule ids flow initial fixed)

include stages

theorem placed_inside (found : schedule.placement.find? id = some block) : block < flow.size := by
  refine stages.placement_keeps (fun placement => ∀ id block, placement.find? id = some block → block < flow.size) ?_ ?_ id block found
  · intro id block found
    rw [Flow.size, stages.flow_starts, size_toArray]
    exact home_inside (stages.fixed_grounded.1.homes id block found)
  intro placement id block held _ _ deepest other spot read
  rw [Placement.find_put] at read
  split at read
  · cases read
    refine deepest_block_within (· < flow.size) (fun input _ source value => ?_) stages.entry_inside deepest
    obtain ⟨_, owner, there⟩ := value_block_placed value
    exact held owner source there
  · exact held other spot read

-- A floating node gets its block after the floating nodes among its inputs.
theorem floating_accessible (floats : graph.Floats id) (found : schedule.placement.find? id = some block) :
    Acc (fun b a => graph.Floats b ∧ graph.Requires a b) id := by
  refine stages.placement_keeps (fun placement => ∀ id, graph.Floats id → ∀ block, placement.find? id = some block →
    Acc (fun b a => graph.Floats b ∧ graph.Requires a b) id) ?_ ?_ id floats block found
  · intro id floats block found
    rw [stages.fixed_grounded.1.pinned id floats] at found
    cases found
  intro placement id block held _ _ deepest other floats spot read
  rw [Placement.find_put] at read
  split at read
  · rename_i same
    constructor
    rintro input ⟨free, requires⟩
    rw [same.1] at requires
    obtain ⟨source, value, _⟩ := (deepest_block_depth deepest).2 input (graph.requires_input requires)
    obtain ⟨⟨own, placed⟩, _⟩ := value_block_placed value
    exact held input free own placed
  · exact held other floats spot read

variable (cycle : List NodeId) (closed : graph.Cycle cycle) (needed : ∀ id ∈ cycle, graph.Needed id)

include closed needed

theorem cycle_controlled : ∃ id ∈ cycle, ∃ node, graph.node? id = some node ∧ 0 < node.op.layout.controls := by
  by_contra free
  have floats : ∀ id ∈ cycle, graph.Floats id := by
    intro id member
    obtain ⟨_, _, node, read, plain, _, _⟩ := graph.cycle_next closed member
    exact ⟨node, read, Nat.eq_zero_of_not_pos fun takes => free ⟨id, member, node, read, takes⟩, plain⟩
  -- The exit is not among them, for all its inputs have a home.
  have inner : ∀ id ∈ cycle, id ≠ Graph.stop := by
    rintro id member rfl
    obtain ⟨next, inside, requires⟩ := graph.cycle_next closed member
    obtain ⟨_, grounded, _, _, exits⟩ := flow_of_graph_grounded stages.ids_nodup stages.ids_needed stages.flowed
    obtain ⟨block, found⟩ := exits next (graph.requires_input requires)
    rw [grounded.pinned next (floats next inside)] at found
    cases found
  obtain ⟨id, member⟩ := graph.cycle_member closed
  obtain ⟨block, found⟩ := Option.isSome_iff_exists.mp
    (stages.placed id ((stages.mem_ids id).mpr ⟨needed id member, inner id member⟩))
  exact graph.cycle_descends closed graph.Floats _
    (fun a _ _ b inside requires => ⟨floats b inside, floats b inside, requires⟩) member (floats id member)
    (stages.floating_accessible (floats id member) found)

theorem cycle_unlisted (place : BlockId) (here : ∀ id ∈ cycle, schedule.blockOf? id = some place) :
    ∃ block, schedule.block? place = some block ∧ (∀ id ∈ cycle, id ∉ block.nodes) ∧
      (place ∈ schedule.order → ∀ id ∈ cycle, id = Graph.stop) := by
  obtain ⟨first, member⟩ := graph.cycle_member closed
  obtain ⟨block, read, _, listed⟩ := stages.any_block_listed (stages.placed_inside (here first member))
  have unlisted : ∀ id ∈ cycle, id ∉ block.nodes := by
    intro id member inside
    refine graph.cycle_descends closed (· ∈ block.nodes) (fun b a => block.nodes.idxOf b < block.nodes.idxOf a) ?_
      member inside ((measure block.nodes.idxOf).wf.apply id)
    intro a _ known b among requires
    have before := listed.inputs a known b (graph.mem_ordering_inputs.mpr requires) (here b among)
    have there := before_mem before
    exact ⟨there, before_lt listed.distinct before (getElem?_idxOf there) (getElem?_idxOf known)⟩
  refine ⟨block, read, unlisted, fun reached id member => ?_⟩
  by_contra other
  rw [if_pos reached] at listed
  refine unlisted id member (listed.complete id (mem_filter.mpr ⟨?_, decide_eq_true (here id member)⟩))
  exact (stages.mem_ids id).mpr ⟨needed id member, other⟩

end Stages

end Schedule

theorem scheduled_cycles_unlisted (graph : Graph) (verified : graph.verify = .ok ()) :
    (∀ id, Schedule.ofGraph graph = .error (.rejected (.cycle id)) → ∃ cycle, graph.Cycle cycle ∧ id ∈ cycle) ∧
      ∀ schedule, Schedule.ofGraph graph = .ok schedule → ∀ cycle, graph.Cycle cycle → (∀ id ∈ cycle, graph.Needed id) →
        (∃ id ∈ cycle, ∃ node, graph.node? id = some node ∧ 0 < node.op.layout.controls) ∧
        ∀ place, (∀ id ∈ cycle, schedule.blockOf? id = some place) →
          ∃ block, schedule.block? place = some block ∧ (∀ id ∈ cycle, id ∉ block.nodes) ∧
            (place ∈ schedule.order → ∀ id ∈ cycle, id = Graph.stop) := by
  rw [Graph.verify_eq_ok] at verified
  refine ⟨fun id => Schedule.of_graph_accounted verified (.rejected (.cycle id)), fun schedule accepted cycle closed needed => ?_⟩
  obtain ⟨ids, flow, initial, fixed, stages⟩ := Schedule.of_graph_stages accepted
  exact ⟨stages.cycle_controlled cycle closed needed, stages.cycle_unlisted cycle closed needed⟩

instance (graph : Graph) (id input : NodeId) : Decidable (graph.Requires id input) :=
  decidable_of_iff _ graph.mem_ordering_inputs

def Graph.mutualChecks : Graph :=
  { Graph.empty with
    nodes := ⟨#[
      { op := .control .start, inputs := [] },
      { op := .control (.stop 1), inputs := [5] },
      { op := .constant (.heap Root.undefined), inputs := [] },
      { op := .checkSmi, inputs := [4, 0, 0] },
      { op := .checkSmi, inputs := [3, 0, 0] },
      { op := .control (.ret 1), inputs := [2, 3, 0, 0] }]⟩ }

def Graph.unreachedChecks : Graph :=
  { Graph.empty with
    nodes := ⟨#[
      { op := .control .start, inputs := [] },
      { op := .control (.stop 1), inputs := [7] },
      { op := .constant (.heap Root.undefined), inputs := [] },
      { op := .control (.loop 1), inputs := [3] },
      { op := .checkSmi, inputs := [5, 0, 3] },
      { op := .checkSmi, inputs := [4, 0, 3] },
      { op := .control (.merge 2), inputs := [0, 3] },
      { op := .control (.ret 1), inputs := [2, 4, 0, 6] }]⟩ }

def Graph.crossedChecks : Graph :=
  { Graph.empty with
    nodes := ⟨#[
      { op := .control .start, inputs := [] },
      { op := .control (.stop 1), inputs := [9] },
      { op := .constant (.heap Root.undefined), inputs := [] },
      { op := .control .branch, inputs := [2, 0] },
      { op := .control .ifTrue, inputs := [3] },
      { op := .control .ifFalse, inputs := [3] },
      { op := .checkSmi, inputs := [7, 0, 4] },
      { op := .checkSmi, inputs := [6, 0, 5] },
      { op := .control (.merge 2), inputs := [4, 5] },
      { op := .control (.ret 1), inputs := [2, 6, 0, 8] }]⟩ }

def Graph.exitOfItself : Graph :=
  { Graph.empty with
    nodes := ⟨#[
      { op := .control .start, inputs := [] },
      { op := .control (.stop 3), inputs := [3, 1, 4] },
      { op := .constant (.heap Root.undefined), inputs := [] },
      { op := .control (.ret 1), inputs := [2, 2, 0, 0] },
      { op := .control (.ret 1), inputs := [2, 2, 0, 0] }]⟩ }

theorem unreached_checks_cycle : Graph.unreachedChecks.Cycle [4, 5] ∧
    ∀ id ∈ [4, 5], Reaches Graph.unreachedChecks.inputsOf Graph.stop id := by
  have first : Reaches Graph.unreachedChecks.inputsOf Graph.stop 4 :=
    .tail (.tail .refl (show 7 ∈ Graph.unreachedChecks.inputsOf Graph.stop by decide)) (by decide)
  have second := first.tail (show 5 ∈ Graph.unreachedChecks.inputsOf 4 by decide)
  exact ⟨⟨4, [5], rfl, by decide⟩, by simp [first, second]⟩

theorem checks_refused_or_unlisted :
    (Graph.mutualChecks.verify = .ok () ∧ Schedule.ofGraph .mutualChecks = .error (.rejected (.cycle 3)) ∧
      ∃ cycle, Graph.mutualChecks.Cycle cycle ∧ 3 ∈ cycle) ∧
    Graph.unreachedChecks.verify = .ok () ∧ ∃ schedule block, Schedule.ofGraph .unreachedChecks = .ok schedule ∧
      schedule.order = [0, 2] ∧ schedule.blockOf? 4 = some 1 ∧ schedule.blockOf? 5 = some 1 ∧
      schedule.block? 1 = some block ∧ 4 ∉ block.nodes ∧ 5 ∉ block.nodes := by
  have together : Graph.mutualChecks.verify = .ok () := ok_of_to_option _ () (by decide)
  have refused : Schedule.ofGraph .mutualChecks = .error (.rejected (.cycle 3)) := by cbv
  have unreached : Graph.unreachedChecks.verify = .ok () := ok_of_to_option _ () (by decide)
  obtain ⟨schedule, accepted, checked⟩ := scheduled_check .unreachedChecks (fun schedule =>
    (schedule.order, schedule.blockOf? 4, schedule.blockOf? 5) = ([0, 2], some 1, some 1)) (by cbv)
  simp only [Prod.mk.injEq, decide_eq_true_eq] at checked
  obtain ⟨order, four, five⟩ := checked
  obtain ⟨closed, reached⟩ := unreached_checks_cycle
  obtain ⟨_, apart⟩ := (scheduled_cycles_unlisted .unreachedChecks unreached).2 schedule accepted [4, 5] closed
    fun id member => .inr (reached id member)
  obtain ⟨block, read, unlisted, _⟩ := apart 1 (by simp [four, five])
  exact ⟨⟨together, refused, (scheduled_cycles_unlisted .mutualChecks together).1 3 refused⟩, unreached, schedule, block, accepted,
    order, four, five, read, unlisted 4 (by simp), unlisted 5 (by simp)⟩

def Graph.Overlooks (graph : Graph) (cycle : List NodeId) : Prop :=
  graph.verify = .ok () ∧ (∃ schedule, Schedule.ofGraph graph = .ok schedule) ∧ graph.Cycle cycle ∧
    ∀ id ∈ cycle, Reaches graph.inputsOf Graph.stop id

theorem scheduled_with_cycles : Graph.unreachedChecks.Overlooks [4, 5] ∧ Graph.crossedChecks.Overlooks [6, 7] ∧
    Graph.exitOfItself.Overlooks [1] := by
  obtain ⟨unreached, first, _⟩ := scheduled_check .unreachedChecks (fun _ => true) (by cbv)
  obtain ⟨crossed, second, _⟩ := scheduled_check .crossedChecks (fun _ => true) (by cbv)
  obtain ⟨itself, third, _⟩ := scheduled_check .exitOfItself (fun _ => true) (by cbv)
  have six : Reaches Graph.crossedChecks.inputsOf Graph.stop 6 :=
    .tail (.tail .refl (show 9 ∈ Graph.crossedChecks.inputsOf Graph.stop by decide)) (by decide)
  have seven := six.tail (show 7 ∈ Graph.crossedChecks.inputsOf 6 by decide)
  exact ⟨⟨ok_of_to_option _ () (by decide), ⟨unreached, first⟩, unreached_checks_cycle⟩,
    ⟨by cbv, ⟨crossed, second⟩, ⟨6, [7], rfl, by decide⟩, by simp [six, seven]⟩,
    ⟨ok_of_to_option _ () (by decide), ⟨itself, third⟩, ⟨1, [], rfl, by decide⟩, forall_mem_singleton.mpr .refl⟩⟩

end SeaOfNodes
