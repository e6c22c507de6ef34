import SeaOfNodes.Proofs.Dominators.Rounds
import SeaOfNodes.Proofs.Schedule.Stages
import SeaOfNodes.Proofs.Traversal

namespace SeaOfNodes

open List DominatorTree

section

variable {edge other : Nat → Nat → Prop} (same : Nat → Nat → Prop) {root start : Nat} (rooted : same root start)
  (forth : ∀ i a j, same i a → edge i j → ∃ b, same j b ∧ other a b)

include rooted forth

theorem route_transfer {i : Nat} {passed : List Nat} (route : Route edge root i passed) :
    ∃ a images, same i a ∧ Route other start a images ∧ Forall₂ same passed images := by
  induction route with
  | start => exact ⟨start, [start], rooted, .start, .cons rooted .nil⟩
  | step i j passed _ jump ih =>
    obtain ⟨a, images, here, before, pairs⟩ := ih
    obtain ⟨b, there, leads⟩ := forth i a j here jump
    exact ⟨b, b :: images, there, .step a b images before leads, .cons there pairs⟩

theorem on_every_route_transfer (alone : ∀ i a j, same i a → same j a → i = j)
    (shared : ∀ i a b, same i a → same i b → a = b) {i j a b : Nat} (first : same i a) (second : same j b) (every : OnEveryRoute other start a b) :
    OnEveryRoute edge root i j := by
  intro passed route
  obtain ⟨c, images, here, image, pairs⟩ := route_transfer same rooted forth route
  have member := every images (shared j c b here second ▸ image)
  obtain ⟨index, bound, read⟩ := getElem_of_mem member
  have length := pairs.length_eq
  have pair := pairs.get (i := index) (by omega) bound
  have found : passed.get ⟨index, by omega⟩ = i := alone _ a _ (by simpa [read] using pair) first
  exact found ▸ get_mem passed _

end

namespace DominatorTree

namespace Settling

variable {predecessors : Nat → List Nat} {size : Nat} {tree : DominatorTree}
  (ordered : Ordered predecessors size) (settling : Settling predecessors size tree)
  (stable : tree.round predecessors = tree)

include settling stable

theorem parent_sweep_stable (position other : Nat) (inside : position ≤ size) :
    (sweep predecessors tree position).parent? other = tree.parent? other := by
  have bound : position ≤ tree.parents.size := by
    rw [settling.measured]
    exact inside
  by_cases earlier : other < position
  · rw [← sweep_earlier predecessors tree position other (le_rfl) bound earlier, ← round_eq_sweep, stable]
  · exact sweep_later predecessors tree position other bound (by omega)

include ordered in
theorem above_iff_on_every_route (position a : Nat) (inside : position < size) :
    tree.Above a position ↔ OnEveryRoute (fun q p => q ∈ predecessors p) 0 a position := by
  constructor
  · intro above passed route
    induction route with
    | start => simp [(above_zero tree a).mp above]
    | step q position passed _ jump ih =>
      by_cases same : a = position
      · exact same ▸ mem_cons_self
      · have order := above_le tree above
        rw [← stable, settling.above_round_iff ordered a (by omega) inside] at above
        have before := above.resolve_left same q jump
        rw [above_congr _ tree a q fun other _ => settling.parent_sweep_stable stable position other (by omega)] at before
        exact mem_cons_of_mem position (ih (ordered.inside position q jump) before)
  · exact settling.complete position inside a

omit stable in
theorem card_above {position : Nat} (inside : position < size) :
    ((Finset.range size).filter fun a => tree.dominates a position).card = tree.depth position + 1 := by
  induction position using Nat.strongRecOn with
  | _ position ih =>
    rw [depth]
    rcases Nat.eq_zero_or_pos position with zero | after
    · subst zero
      have single : (Finset.range size).filter (fun a => tree.dominates a 0) = {0} := by
        ext a
        have only := above_zero tree a
        rw [Above] at only
        simp only [Finset.mem_filter, Finset.mem_range, Finset.mem_singleton, only]
        constructor
        · exact And.right
        · intro zero
          exact ⟨zero ▸ inside, zero⟩
      rw [single, settling.rooted.root]
      rfl
    · obtain ⟨parent, read⟩ := Option.isSome_iff_exists.mp (settling.placed position inside)
      have below := settling.rooted.below position parent read after
      have step : (Finset.range size).filter (fun a => tree.dominates a position) =
          insert position ((Finset.range size).filter fun a => tree.dominates a parent) := by
        ext a
        have both := settling.rooted.above_iff (a := a) read after
        rw [Above, Above] at both
        simp only [Finset.mem_filter, Finset.mem_range, Finset.mem_insert, both]
        constructor
        · rintro ⟨bound, same | higher⟩
          · exact .inl same
          · exact .inr ⟨bound, higher⟩
        · rintro (same | ⟨bound, higher⟩)
          · exact ⟨same ▸ inside, .inl same⟩
          · exact ⟨bound, .inr higher⟩
      have fresh : position ∉ (Finset.range size).filter fun a => tree.dominates a parent := by
        intro member
        have order := above_le tree (Finset.mem_filter.mp member).2
        omega
      rw [step, Finset.card_insert_of_notMem fresh, ih parent below (by omega), read]
      simp [below]

end Settling

end DominatorTree

theorem idx_of_eq_some {order : List Nat} (distinct : order.Nodup) (id position : Nat) :
    order.idxOf? id = some position ↔ order[position]? = some id := by
  rw [idxOf?_eq_some_iff, getElem?_eq_some_iff]
  constructor
  · rintro ⟨bound, same, _⟩
    exact ⟨bound, same⟩
  · rintro ⟨bound, same⟩
    refine ⟨bound, same, fun earlier before again => ?_⟩
    have equal := distinct.getElem_inj_iff.mp (again.trans same.symm)
    omega

namespace Flow

theorem mem_positions_before (flow : Flow) {order : List BlockId} (distinct : order.Nodup) {position block : Nat}
    (read : order[position]? = some block) (q : Nat) :
    q ∈ flow.positionsBefore order position ↔ ∃ previous, order[q]? = some previous ∧ block ∈ flow.successors previous := by
  simp only [positionsBefore, read, mem_filterMap, mem_predecessors, idx_of_eq_some distinct]
  constructor
  · rintro ⟨previous, leads, place⟩
    exact ⟨previous, place, leads⟩
  · rintro ⟨previous, place, leads⟩
    exact ⟨previous, leads, place⟩

section

variable (flow : Flow) (entry : BlockId)

theorem order_first : (flow.order entry)[0]? = some entry := by
  rw [← head?_eq_getElem?]
  exact reverse_postorder_head flow.successors flow.size entry

variable (closed : ∀ block, ∀ next ∈ flow.successors block, next < flow.size)

theorem order_ordered : Ordered (flow.positionsBefore (flow.order entry)) (flow.order entry).length := by
  have distinct : (flow.order entry).Nodup := reverse_postorder_nodup flow.successors flow.size entry
  have first := flow.order_first entry
  refine ⟨?_, ?_, ?_⟩
  · exact (List.getElem?_eq_some_iff.mp first).1
  · intro position q member
    cases read : (flow.order entry)[position]? with
    | none => simp [positionsBefore, read] at member
    | some block =>
      obtain ⟨previous, place, _⟩ := (flow.mem_positions_before distinct read q).mp member
      exact (List.getElem?_eq_some_iff.mp place).1
  · intro position after inside
    obtain ⟨block, read⟩ : ∃ block, (flow.order entry)[position]? = some block := ⟨_, getElem?_eq_getElem inside⟩
    have different : block ≠ entry := by
      rintro rfl
      rw [← idx_of_eq_some distinct] at read first
      rw [read] at first
      cases first
      omega
    obtain ⟨p, leads, front, back, split, member⟩ :=
      reverse_postorder_parent flow.successors flow.size entry (mem_of_getElem? read) different
    have whole : flow.order entry = front ++ block :: back := split
    obtain ⟨q, bound, place⟩ := getElem_of_mem member
    have placed : (flow.order entry)[q]? = some p := by
      rw [whole, getElem?_append_left bound, getElem?_eq_getElem bound, place]
    have own : (flow.order entry)[front.length]? = some block := by
      rw [whole]
      simp
    have here : position = front.length := by
      rw [← idx_of_eq_some distinct] at own read
      exact Option.some.inj (read.symm.trans own)
    exact ⟨q, (flow.mem_positions_before distinct read q).mpr ⟨p, placed, leads⟩, here ▸ bound⟩

include closed in
theorem order_closed {block next : BlockId} (member : block ∈ flow.order entry) (leads : next ∈ flow.successors block) :
    next ∈ flow.order entry := by
  rw [order, mem_reverse_postorder flow.successors flow.size entry closed] at member ⊢
  exact member.tail leads

end

end Flow

namespace Schedule

def Leads (schedule : Schedule) (a b : BlockId) : Prop :=
  ∃ block, schedule.block? a = some block ∧ b ∈ block.successors

namespace Stages

variable {graph : Graph} {schedule : Schedule} {ids : List NodeId} {flow : Flow} {initial fixed : Placement}
  (stages : Stages graph schedule ids flow initial fixed)

include stages

theorem closed (block next : BlockId) (leads : next ∈ flow.successors block) : next < flow.size :=
  Flow.of_graph_target stages.flowed leads

theorem distinct : schedule.order.Nodup := by
  rw [stages.ordered]
  exact reverse_postorder_nodup flow.successors flow.size schedule.entry

theorem order_inside {block : BlockId} (member : block ∈ schedule.order) : block < flow.size := by
  rw [stages.ordered, Flow.order, mem_reverse_postorder _ _ _ stages.closed] at member
  rcases member.cases_tail with same | ⟨before, _, leads⟩
  · exact same ▸ stages.entry_inside
  · exact stages.closed before block leads

theorem leads_iff {a : BlockId} (b : BlockId) (inside : a < flow.size) : schedule.Leads a b ↔ b ∈ flow.successors a := by
  obtain ⟨block, read, same⟩ := stages.block_successors inside
  constructor
  · rintro ⟨other, again, member⟩
    rw [read] at again
    cases again
    exact same ▸ member
  · intro member
    exact ⟨block, read, same ▸ member⟩

theorem settled : ∃ rounds, schedule.dominators =
      (round (flow.positionsBefore schedule.order))^[rounds] (.unplaced schedule.order.length) ∧
    Settling (flow.positionsBefore schedule.order) schedule.order.length schedule.dominators ∧
    schedule.dominators.round (flow.positionsBefore schedule.order) = schedule.dominators := by
  have ordered := flow.order_ordered schedule.entry
  rw [← stages.ordered] at ordered
  obtain ⟨rounds, built, settling, stable⟩ := build_ends ordered
  have same := Except.ok.inj (stages.dominated.symm.trans built)
  exact ⟨rounds, same, same ▸ settling, same ▸ stable⟩

theorem position_route (i j a b : Nat) (first : schedule.order[i]? = some a) (second : schedule.order[j]? = some b) :
    OnEveryRoute (fun q p => q ∈ flow.positionsBefore schedule.order p) 0 i j ↔
      OnEveryRoute schedule.Leads schedule.entry a b := by
  have distinct := stages.distinct
  have start : schedule.order[0]? = some schedule.entry := by
    rw [stages.ordered]
    exact flow.order_first schedule.entry
  have alone : ∀ i a j : Nat, schedule.order[i]? = some a → schedule.order[j]? = some a → i = j := by
    intro i a j here there
    rw [← idx_of_eq_some distinct] at here there
    exact Option.some.inj (here.symm.trans there)
  have shared : ∀ i a b : Nat, schedule.order[i]? = some a → schedule.order[i]? = some b → a = b :=
    fun i a b here there => Option.some.inj (here.symm.trans there)
  have inside : ∀ i a : Nat, schedule.order[i]? = some a → a < flow.size :=
    fun i a here => stages.order_inside (mem_of_getElem? here)
  constructor
  · refine on_every_route_transfer (fun a i => schedule.order[i]? = some a) start ?_
      (fun a i b here there => shared i a b here there) (fun a i j here there => alone i a j here there) first second
    intro a i b here leads
    rw [stages.leads_iff b (inside i a here)] at leads
    have member := mem_of_getElem? here
    rw [stages.ordered] at member
    have next := flow.order_closed schedule.entry stages.closed member leads
    rw [← stages.ordered] at next
    obtain ⟨j, there⟩ := getElem?_of_mem next
    exact ⟨j, there, (flow.mem_positions_before distinct there i).mpr ⟨a, here, leads⟩⟩
  · refine on_every_route_transfer (fun i a => schedule.order[i]? = some a) start ?_ alone shared first second
    intro i a j here jump
    cases there : schedule.order[j]? with
    | none => simp [Flow.positionsBefore, there] at jump
    | some b =>
      obtain ⟨previous, place, leads⟩ := (flow.mem_positions_before distinct there i).mp jump
      rw [here] at place
      cases place
      exact ⟨b, rfl, (stages.leads_iff b (inside i a here)).mpr leads⟩

theorem dominates_positions {i j a b : Nat} (first : schedule.order[i]? = some a)
    (second : schedule.order[j]? = some b) : schedule.dominates a b = schedule.dominators.dominates i j := by
  rw [← idx_of_eq_some stages.distinct] at first second
  simp [dominates, first, second]

theorem dominates_ordered {a b : BlockId} (member : b ∈ schedule.order) (above : schedule.dominates a b) :
    a ∈ schedule.order := by
  obtain ⟨j, there⟩ := getElem?_of_mem member
  rw [← idx_of_eq_some stages.distinct] at there
  cases here : schedule.order.idxOf? a with
  | none =>
    simp only [dominates, here, decide_eq_true_eq] at above
    exact above ▸ member
  | some i => exact mem_of_getElem? ((idx_of_eq_some stages.distinct a i).mp here)

theorem block_depth (j b : Nat) (place : schedule.order[j]? = some b) :
    ∃ block, schedule.block? b = some block ∧ block.depth = schedule.dominators.depth j := by
  obtain ⟨empty, nodes, read, filled⟩ := stages.block_fields (stages.order_inside (mem_of_getElem? place))
  simp only [emptyBlocks, Array.getElem?_mapIdx, Option.map_eq_some_iff] at read
  obtain ⟨start, _, same⟩ := read
  rw [← idx_of_eq_some stages.distinct] at place
  exact ⟨_, filled, by rw [← same]; simp [place]⟩

theorem card_dominates (j b : Nat) (place : schedule.order[j]? = some b) :
    ((Finset.range schedule.blocks.size).filter fun a => a ≠ b ∧ schedule.dominates a b).card =
      schedule.dominators.depth j := by
  obtain ⟨_, _, settling, _⟩ := stages.settled
  have positions := settling.card_above (List.getElem?_eq_some_iff.mp place).1
  have blocks : ((Finset.range schedule.blocks.size).filter fun a => schedule.dominates a b).card =
      schedule.dominators.depth j + 1 := by
    rw [← positions]
    symm
    refine Finset.card_bij (fun i _ => schedule.order.getD i 0) ?_ ?_ ?_
    · intro i member
      obtain ⟨inside, above⟩ := Finset.mem_filter.mp member
      have here := getElem?_eq_getElem (Finset.mem_range.mp inside)
      have bound := stages.order_inside (mem_of_getElem? here)
      rw [getD_eq_getElem?_getD, here, Option.getD_some, Finset.mem_filter, Finset.mem_range, stages.size_blocks,
        stages.dominates_positions here place]
      exact ⟨bound, above⟩
    · intro i first k second same
      have here := getElem?_eq_getElem (Finset.mem_range.mp (Finset.mem_filter.mp first).1)
      have there := getElem?_eq_getElem (Finset.mem_range.mp (Finset.mem_filter.mp second).1)
      simp only [getD_eq_getElem?_getD, here, there, Option.getD_some] at same
      exact stages.distinct.getElem_inj_iff.mp same
    · intro a member
      have above := (Finset.mem_filter.mp member).2
      obtain ⟨i, here⟩ := getElem?_of_mem (stages.dominates_ordered (mem_of_getElem? place) above)
      rw [stages.dominates_positions here place] at above
      have inside := (List.getElem?_eq_some_iff.mp here).1
      exact ⟨i, Finset.mem_filter.mpr ⟨Finset.mem_range.mpr inside, above⟩, by simp [getD_eq_getElem?_getD, here]⟩
  have itself : b ∈ (Finset.range schedule.blocks.size).filter fun a => schedule.dominates a b := by
    rw [Finset.mem_filter, Finset.mem_range, stages.size_blocks, stages.dominates_positions place place]
    exact ⟨stages.order_inside (mem_of_getElem? place), above_refl _ j⟩
  have others : (Finset.range schedule.blocks.size).filter (fun a => a ≠ b ∧ schedule.dominates a b) =
      ((Finset.range schedule.blocks.size).filter fun a => schedule.dominates a b).erase b := by
    ext a
    simp only [Finset.mem_filter, Finset.mem_erase]
    tauto
  rw [others, Finset.card_erase_of_mem itself, blocks]
  rfl

end Stages

end Schedule

def DominatorTree.Ends (predecessors : Nat → List Nat) (size : Nat) : Prop :=
  ∃ rounds, build predecessors size = .ok ((round predecessors)^[rounds] (unplaced size)) ∧
    ((round predecessors)^[rounds] (unplaced size)).round predecessors = (round predecessors)^[rounds] (unplaced size) ∧
    ∀ earlier position a b, position ≤ size →
      Meets (sweep predecessors ((round predecessors)^[earlier] (unplaced size)) position) a b
        (intersect (sweep predecessors ((round predecessors)^[earlier] (unplaced size)) position) a b)

theorem DominatorTree.ordered_ends (predecessors : Nat → List Nat) (size : Nat) (ordered : Ordered predecessors size) :
    Ends predecessors size := by
  obtain ⟨rounds, built, _, stable⟩ := build_ends ordered
  refine ⟨rounds, built, stable, fun earlier position a b bound => ?_⟩
  obtain ⟨rooted, measured⟩ := rounds_rooted ordered earlier
  exact (sweep_rooted ordered rooted measured position bound).1.meets_intersect a b

theorem schedule_dominators_exact (graph : Graph) : (∀ (flow : Flow) (entry : BlockId),
      DominatorTree.Ends (flow.positionsBefore (flow.order entry)) (flow.order entry).length) ∧
    ∀ schedule, Schedule.ofGraph graph = .ok schedule → (∀ a ∈ schedule.order, ∀ b ∈ schedule.order,
        schedule.dominates a b = true ↔ OnEveryRoute schedule.Leads schedule.entry a b) ∧
      ∀ b ∈ schedule.order, ∃ block, schedule.block? b = some block ∧
        block.depth = ((Finset.range schedule.blocks.size).filter fun a => a ≠ b ∧ schedule.dominates a b = true).card := by
  refine ⟨fun flow entry => ordered_ends _ _ (flow.order_ordered entry), fun schedule accepted => ?_⟩
  obtain ⟨ids, flow, initial, fixed, stages⟩ := Schedule.of_graph_stages accepted
  obtain ⟨_, _, settling, stable⟩ := stages.settled
  have ordered := flow.order_ordered schedule.entry
  rw [← stages.ordered] at ordered
  constructor
  · intro a first b second
    obtain ⟨i, here⟩ := getElem?_of_mem first
    obtain ⟨j, there⟩ := getElem?_of_mem second
    rw [← stages.position_route i j a b here there, stages.dominates_positions here there]
    exact settling.above_iff_on_every_route ordered stable j i (List.getElem?_eq_some_iff.mp there).1
  · intro b member
    obtain ⟨j, there⟩ := getElem?_of_mem member
    obtain ⟨block, read, depth⟩ := stages.block_depth j b there
    exact ⟨block, read, depth.trans (stages.card_dominates j b there).symm⟩

def Graph.branchingLoop : Graph :=
  { Graph.empty with
    nodes := ⟨#[
      { op := .control .start, inputs := [] },
      { op := .control (.stop 1), inputs := [7] },
      { op := .constant (.int32 1), inputs := [] },
      { op := .control (.loop 2), inputs := [0, 5] },
      { op := .control .branch, inputs := [2, 3] },
      { op := .control .ifTrue, inputs := [4] },
      { op := .control .ifFalse, inputs := [4] },
      { op := .control (.ret 1), inputs := [2, 2, 0, 6] }]⟩ }

theorem branching_loop_dominators : ∃ schedule, Schedule.ofGraph .branchingLoop = .ok schedule ∧
    schedule.order = [0, 1, 3, 2] ∧ OnEveryRoute schedule.Leads schedule.entry 1 3 ∧
    ¬ OnEveryRoute schedule.Leads schedule.entry 2 3 := by
  have run : (Schedule.ofGraph .branchingLoop).toOption.map (fun schedule =>
      (schedule.order, schedule.dominates 1 3, schedule.dominates 2 3)) = some ([0, 1, 3, 2], true, false) := by cbv
  cases accepted : Schedule.ofGraph .branchingLoop with
  | error failure =>
    rw [accepted] at run
    cases run
  | ok schedule =>
    rw [accepted] at run
    simp only [Except.toOption, Option.map_some, Option.some.injEq, Prod.mk.injEq] at run
    obtain ⟨order, above, aside⟩ := run
    have exact := ((schedule_dominators_exact .branchingLoop).2 schedule accepted).1
    refine ⟨schedule, rfl, order, ?_, ?_⟩
    · exact (exact 1 (by simp [order]) 3 (by simp [order])).mp above
    · rw [← exact 2 (by simp [order]) 3 (by simp [order]), aside]
      exact Bool.false_ne_true

end SeaOfNodes
