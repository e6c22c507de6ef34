import SeaOfNodes.Proofs.Schedule.Earliest
import SeaOfNodes.Proofs.Schedule.Listed

/-! Cycles of inputs. -/

namespace SeaOfNodes

open List

variable {id input : NodeId}

namespace Graph

variable {cycle : List NodeId}

def Requires (graph : Graph) (id input : NodeId) : Prop :=
  ∃ node, graph.node? id = some node ∧ node.op.startsBlock = false ∧ node.op.isPhi = false ∧ input ∈ node.inputs

def Cycle (graph : Graph) (cycle : List NodeId) : Prop :=
  ∃ first rest, cycle = first :: rest ∧ (cycle ++ [first]).IsChain graph.Requires

theorem mem_ordering_inputs (graph : Graph) {id input : NodeId} :
    input ∈ Schedule.orderingInputs graph id ↔ graph.Requires id input := by
  rw [Schedule.orderingInputs]
  cases read : graph.node? id with
  | none => simp [Requires, read]
  | some node =>
    by_cases starts : node.op.startsBlock
    · simp [Requires, read, starts]
    · by_cases phi : node.op.isPhi
      · simp [Requires, read, phi]
      · simp [Requires, read, starts, phi]

theorem requires_input (graph : Graph) (requires : graph.Requires id input) : input ∈ graph.inputsOf id :=
  Schedule.ordering_input (graph.mem_ordering_inputs.mpr requires)

theorem cycle_member (graph : Graph) (closed : graph.Cycle cycle) : ∃ id, id ∈ cycle := by
  obtain ⟨first, rest, whole, _⟩ := closed
  exact ⟨first, whole ▸ mem_cons_self⟩

theorem cycle_next (graph : Graph) (closed : graph.Cycle cycle) (member : id ∈ cycle) :
    ∃ next ∈ cycle, graph.Requires id next := by
  obtain ⟨first, rest, whole, chained⟩ := closed
  obtain ⟨index, bound, rfl⟩ := getElem_of_mem member
  have further : index + 1 < (cycle ++ [first]).length := by simpa using bound
  have edge := isChain_iff_getElem.mp chained index further
  rw [getElem_append_left bound] at edge
  refine ⟨_, ?_, edge⟩
  rcases mem_append.mp (getElem_mem further) with inside | last
  · exact inside
  · rw [mem_singleton.mp last, whole]
    exact mem_cons_self

-- Along a cycle there is always a next node, so nothing well-founded can fall.
theorem cycle_descends (graph : Graph) (closed : graph.Cycle cycle) (holds : NodeId → Prop) (below : NodeId → NodeId → Prop)
    (falls : ∀ a ∈ cycle, holds a → ∀ b ∈ cycle, graph.Requires a b → holds b ∧ below b a) (member : id ∈ cycle) (held : holds id) :
    ¬ Acc below id := by
  intro accessible
  induction accessible with
  | intro id _ ih =>
    obtain ⟨next, inside, requires⟩ := graph.cycle_next closed member
    obtain ⟨again, lower⟩ := falls id member held next inside requires
    exact ih next lower inside again

-- The nodes on a stack require each other from the bottom to the top; one more step down closes the cycle.
theorem stack_cycle (graph : Graph) {top : NodeId} {rest : List NodeId}
    (chained : (top :: rest).IsChain fun upper lower => graph.Requires lower upper) (closes : graph.Requires top input)
    (member : input ∈ top :: rest) : ∃ cycle, graph.Cycle cycle ∧ input ∈ cycle := by
  obtain ⟨front, back, whole⟩ := append_of_mem member
  have turned : (front ++ [input]).reverse = input :: front.reverse := by simp
  have upward : (input :: front.reverse).IsChain graph.Requires := by
    rw [← turned, isChain_reverse]
    rw [whole, append_cons] at chained
    exact chained.left_of_append
  have highest : (input :: front.reverse).getLast? = some top := by
    rw [← turned, getLast?_reverse]
    cases front with
    | nil | cons first others => exact congrArg some (cons.inj whole).1.symm
  refine ⟨input :: front.reverse, ⟨input, front.reverse, rfl, isChain_append.mpr ⟨upward, .singleton _, ?_⟩⟩, mem_cons_self⟩
  intro last ends first begins
  rw [highest] at ends
  cases ends
  cases begins
  exact closes

end Graph

theorem filter_m_tested {ε α : Type} {items kept : List α} {test : α → Except ε Bool} (run : items.filterM test = .ok kept) :
    ∀ item ∈ items, ∃ answer, test item = .ok answer := by
  have steps : ∀ before all : List α, items.filterAuxM test before = .ok all → ∀ item ∈ items, ∃ answer, test item = .ok answer := by
    clear run
    induction items with
    | nil => simp
    | cons first rest ih =>
      intro before all done
      rw [filterAuxM, bind_eq_ok] at done
      obtain ⟨chosen, tested, later⟩ := done
      exact forall_mem_cons.mpr ⟨⟨chosen, tested⟩, ih _ all later⟩
  rw [filterM, bind_eq_ok] at run
  obtain ⟨all, done, _⟩ := run
  exact steps [] all done

namespace Schedule

section

variable {placement : Placement} {unvisited more : List NodeId} {rest : List (NodeId × List NodeId)} {graph : Graph}
  {base : Placement}

-- What has a block before the floating nodes get theirs.
structure Moored (graph : Graph) (base : Placement) : Prop where
  sized : base.size = graph.size
  bounded : ∀ id, graph.Needed id → id < graph.size
  exits : ∀ id ∈ graph.inputsOf Graph.stop, ∃ block, base.find? id = some block
  floats : ∀ id, graph.Needed id → id ≠ Graph.stop → base.find? id = none → graph.Floats id

theorem grounded_moored {ids pinned : List NodeId} {flow : Flow} {initial : Placement} (gathered : graph.schedulable = .ok ids)
    (flowed : Flow.ofGraph graph ids = .ok (flow, initial)) (filtered : ids.filterM (isFixed graph) = .ok pinned)
    (folded : pinned.foldlM (placeFixed graph) initial = .ok base) : Moored graph base := by
  obtain ⟨distinct, members, bounded⟩ := graph.schedulable_exact gathered
  have needed : ∀ id ∈ ids, graph.Needed id := fun id member => ((members id).mp member).1
  obtain ⟨_, started, _, _, exits⟩ := flow_of_graph_grounded distinct needed flowed
  have chosen := mem_filter_m filtered
  obtain ⟨grounded, wider, placed⟩ := place_all_fixed_grounded distinct started
    (fun id member => ⟨needed id ((chosen id).mp member).1, ((chosen id).mp member).2⟩) folded
  refine ⟨grounded.sized, bounded, fun id edge => ?_, fun id reached inner bare => ?_⟩
  · obtain ⟨block, found⟩ := exits id edge
    exact ⟨block, wider id block found⟩
  have member := (members id).mpr ⟨reached, inner⟩
  obtain ⟨answer, tested⟩ := filter_m_tested filtered id member
  have own := tested
  simp only [isFixed, bind_eq_ok, of_faulty_eq_ok, pure_eq_ok, graph.op_eq_ok, checked_layout_eq_ok] at own
  obtain ⟨_, ⟨node, read, rfl⟩, _, ⟨_, rfl⟩, shape⟩ := own
  obtain ⟨_, plain⟩ := unplaced_inner grounded.toAtHome member read bare
  refine ⟨node, read, Nat.eq_zero_of_not_pos fun takes => ?_, plain⟩
  rw [← shape, plain, decide_eq_true takes] at tested
  obtain ⟨block, found⟩ := placed id ((chosen id).mpr ⟨member, tested⟩)
  rw [bare] at found
  cases found

theorem moored_requires (moored : Moored graph base) (wider : base.Extends placement) (needed : graph.Needed id)
    (bare : placement.find? id = none) (edge : input ∈ graph.inputsOf id) (missing : placement.find? input = none) :
    graph.Requires id input := by
  by_cases last : id = Graph.stop
  · obtain ⟨block, found⟩ := moored.exits input (last ▸ edge)
    rw [wider input block found] at missing
    cases missing
  · have unplaced : base.find? id = none := by
      refine Option.eq_none_iff_forall_ne_some.mpr fun block found => ?_
      rw [wider id block found] at bare
      cases bare
    obtain ⟨node, read, plain, straight⟩ := floats_shape (moored.floats id needed last unplaced)
    exact ⟨node, read, plain, straight, graph.inputs_of_eq id node read ▸ edge⟩

-- Every node that has been visited is placed or still on the stack.
structure Adrift (graph : Graph) (base : Placement) (unvisited : List NodeId) (placement : Placement)
    (stack : List (NodeId × List NodeId)) : Prop extends Afloat graph unvisited placement stack where
  sized : placement.size = graph.size
  wider : base.Extends placement
  covered : ∀ id, graph.Needed id → id ∈ unvisited ∨ (placement.find? id).isSome ∨ id ∈ stack.map Prod.fst
  chained : (stack.map Prod.fst).IsChain fun upper lower => graph.Requires lower upper

theorem adrift_begin (needed : graph.Needed id) (bare : placement.find? id = none)
    (adrift : Adrift graph base unvisited placement []) :
    Adrift graph base (unvisited.erase id) placement [(id, graph.inputsOf id)] := by
  refine ⟨afloat_begin placement needed adrift.fresh bare, adrift.sized, adrift.wider, fun other wanted => ?_, .singleton _⟩
  rcases adrift.covered other wanted with new | placed | stacked
  · by_cases same : other = id
    · exact .inr (.inr (same ▸ mem_cons_self))
    · exact .inl ((mem_erase_of_ne same).mpr new)
  · exact .inr (.inl placed)
  · cases stacked

theorem adrift_leave (moored : Moored graph base) (block : BlockId)
    (adrift : Adrift graph base unvisited placement ((id, []) :: rest)) :
    Adrift graph base unvisited (placement.put id block) rest := by
  have bare := (adrift.entered id mem_cons_self).1
  have wider := placement.extends_put block bare
  refine ⟨afloat_leave block adrift.toAfloat, (placement.size_put id block).trans adrift.sized,
    Placement.extends_trans adrift.wider wider, fun other needed => ?_, adrift.chained.tail⟩
  rcases adrift.covered other needed with new | placed | stacked
  · exact .inl new
  · exact .inr (.inl (placement.extends_some wider placed))
  · rcases mem_cons.mp stacked with same | deeper
    · change other = id at same
      subst same
      rw [Placement.find_put, if_pos ⟨rfl, adrift.sized ▸ moored.bounded other needed⟩]
      exact .inr (.inl rfl)
    · exact .inr (.inr deeper)

theorem adrift_drop (adrift : Adrift graph base unvisited placement ((id, input :: more) :: rest)) :
    Adrift graph base unvisited placement ((id, more) :: rest) :=
  ⟨afloat_drop adrift.toAfloat, adrift.sized, adrift.wider, adrift.covered, adrift.chained⟩

theorem adrift_requires (moored : Moored graph base) (missing : placement.find? input = none)
    (adrift : Adrift graph base unvisited placement ((id, input :: more) :: rest)) : graph.Requires id input := by
  obtain ⟨needed, inputs⟩ := adrift.waiting _ mem_cons_self
  exact moored_requires moored adrift.wider needed (adrift.entered id mem_cons_self).1 (inputs input mem_cons_self) missing

theorem adrift_enter (moored : Moored graph base) (missing : placement.find? input = none) (member : input ∈ unvisited)
    (adrift : Adrift graph base unvisited placement ((id, input :: more) :: rest)) :
    Adrift graph base (unvisited.erase input) placement ((input, graph.inputsOf input) :: (id, more) :: rest) := by
  refine ⟨afloat_enter missing member adrift.toAfloat, adrift.sized, adrift.wider,
    fun other needed => ?_, isChain_cons_cons.mpr ⟨adrift_requires moored missing adrift, adrift.chained⟩⟩
  rcases adrift.covered other needed with new | placed | stacked
  · by_cases same : other = input
    · exact .inr (.inr (same ▸ mem_cons_self))
    · exact .inl ((mem_erase_of_ne same).mpr new)
  · exact .inr (.inl placed)
  · exact .inr (.inr (mem_cons_of_mem input stacked))

end

end Schedule

end SeaOfNodes
