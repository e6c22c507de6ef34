import SeaOfNodes.Proofs.Graph.Verified
import SeaOfNodes.Proofs.Schedule.Grounded

/-! Walks along first control inputs: they stop, or they go in a circle. -/

namespace SeaOfNodes.Graph

open List

variable {id previous : NodeId} {node : Node}

-- Where a walk stops that began at `origin`.
def Halts (graph : Graph) (origin id : NodeId) : Prop :=
  ∃ node, graph.node? id = some node ∧
    (node.op.startsBlock = true ∧ id ≠ stop ∨ node.op.isTerminator = true ∧ id ≠ origin ∨ node.op.layout.controls = 0)

def Passes (graph : Graph) (origin id previous : NodeId) : Prop :=
  ¬ graph.Halts origin id ∧ graph.controlInput id = .ok previous

def Settles (graph : Graph) (origin : NodeId) : Prop :=
  ∃ first last, graph.controlInput origin = .ok first ∧ Relation.ReflTransGen (graph.Passes origin) first last ∧
    graph.Halts origin last

def Taken (graph : Graph) (id : NodeId) : Prop :=
  ∃ user node, graph.Needed user ∧ user ≠ stop ∧ graph.node? user = some node ∧ id ∈ controlInputs node

def Strays (graph : Graph) (id : NodeId) : Prop :=
  (∃ user, graph.Needed user ∧ stop ∈ graph.inputsOf user) ∨
    ∃ node, graph.node? id = some node ∧ (node.op.startsBlock = true → id = stop) ∧
      (graph.Taken id ∧ (node.op.isTerminator = true ∨ node.op.layout.controls = 0) ∨
        id ∈ graph.inputsOf stop ∧ node.op.layout.controls = 0)

def Arrives (graph : Graph) (origin id : NodeId) : Prop :=
  (∃ user, graph.Needed user ∧ stop ∈ graph.inputsOf user) ∨ graph.Taken id ∨
    id = origin ∧ (id ∈ graph.inputsOf stop ∨ id ≠ stop ∧ ∀ node, graph.node? id = some node → 0 < node.op.layout.controls)

def Roams (graph : Graph) (origin id : NodeId) : Prop :=
  ∃ last, Relation.ReflTransGen (graph.Passes origin) id last ∧ Relation.TransGen (graph.Passes origin) last last

def Circles (graph : Graph) (origin : NodeId) : Prop :=
  ∃ first, graph.controlInput origin = .ok first ∧ graph.Roams origin first

variable {graph : Graph} {origin : NodeId}

theorem arrives_next (needed : graph.Needed id) (arrives : graph.Arrives origin id) (read : graph.node? id = some node)
    (taken : previous ∈ controlInputs node) : graph.Arrives origin previous := by
  by_cases last : id = stop
  · subst last
    rcases arrives with beyond | ⟨user, other, wanted, _, found, edge⟩ | ⟨_, own | ⟨impossible, _⟩⟩
    · exact .inl beyond
    · exact .inl ⟨user, wanted, graph.inputs_of_eq user other found ▸ mem_of_mem_drop edge⟩
    · exact .inl ⟨stop, needed, own⟩
    · exact absurd rfl impossible
  · exact .inr (.inl ⟨id, node, needed, last, read, taken⟩)

theorem arrives_strays (arrives : graph.Arrives origin id) (read : graph.node? id = some node)
    (inner : node.op.startsBlock → id = stop)
    (blocks : node.op.layout.controls = 0 ∨ node.op.isTerminator ∧ id ≠ origin) : graph.Strays id := by
  rcases arrives with beyond | taken | ⟨same, own⟩
  · exact .inl beyond
  · exact .inr ⟨node, read, inner, .inl ⟨taken, blocks.symm.imp_left And.left⟩⟩
  · have free := blocks.resolve_right fun ends => ends.2 same
    rcases own with exits | ⟨_, controlled⟩
    · exact .inr ⟨node, read, inner, .inr ⟨exits, free⟩⟩
    · exact absurd free (Nat.ne_of_gt (controlled node read))

theorem passes_unique {one other : NodeId} (first : graph.Passes origin id one) (second : graph.Passes origin id other) :
    one = other := Except.ok.inj (first.2.symm.trans second.2)

theorem roams_step (roams : graph.Roams origin id) :
    ∃ previous, graph.Passes origin id previous ∧ graph.Roams origin previous := by
  obtain ⟨last, path, circle⟩ := roams
  rcases Relation.ReflTransGen.cases_head path with same | ⟨previous, step, rest⟩
  · subst same
    obtain ⟨previous, step, back⟩ := Relation.TransGen.head'_iff.mp circle
    exact ⟨previous, step, id, back, circle⟩
  · exact ⟨previous, step, last, rest, circle⟩

theorem roams_along {last : NodeId} (roams : graph.Roams origin id) (path : Relation.ReflTransGen (graph.Passes origin) id last) :
    graph.Roams origin last := by
  induction path with
  | refl => exact roams
  | tail _ step ih =>
    obtain ⟨previous, other, further⟩ := roams_step ih
    exact passes_unique other step ▸ further

theorem settles_not_circles (settles : graph.Settles origin) : ¬ graph.Circles origin := by
  rintro ⟨other, again, roams⟩
  obtain ⟨first, last, taken, path, halts⟩ := settles
  rw [Except.ok.inj (again.symm.trans taken)] at roams
  obtain ⟨_, step, _⟩ := roams_step (roams_along roams path)
  exact step.1 halts

def walked (graph : Graph) (id : NodeId) (steps : Nat) : NodeId :=
  (fun id => (graph.controlInput id).toOption.getD id)^[steps] id

theorem walked_step (taken : graph.controlInput id = .ok previous) (steps : Nat) :
    graph.walked id (steps + 1) = graph.walked previous steps := by
  rw [walked, walked, Function.iterate_succ_apply, taken]
  rfl

theorem walked_next {steps : Nat} (taken : graph.controlInput (graph.walked id steps) = .ok previous) :
    graph.walked id (steps + 1) = previous := by
  rw [walked] at taken
  rw [walked, Function.iterate_succ_apply', taken]
  rfl

section

variable (id : NodeId) (count : Nat)
  (long : ∀ steps < count, graph.Passes origin (graph.walked id steps) (graph.walked id (steps + 1)))

include long

theorem walked_path (few many : Nat) (order : few ≤ many) (inside : many ≤ count) :
    Relation.ReflTransGen (graph.Passes origin) (graph.walked id few) (graph.walked id many) := by
  have steps : Relation.ReflTransGen (fun a b => graph.Passes origin (graph.walked id a) (graph.walked id b)) few many := by
    apply reflTransGen_of_succ_of_le _ _ order
    intro place member
    exact long place (lt_of_lt_of_le (Set.mem_Ico.mp member).2 inside)
  exact steps.lift (graph.walked id) fun _ _ step => step

-- A walk of more steps than the graph has nodes comes back to one of them.
theorem walked_returns (enough : graph.size < count) :
    ∃ few many, few < many ∧ many ≤ graph.size ∧ graph.walked id few = graph.walked id many := by
  have inside : ∀ steps ∈ Finset.range (graph.size + 1), graph.walked id steps ∈ Finset.range graph.size := by
    intro steps member
    obtain ⟨node, read, _⟩ := graph.control_input_head (long steps (by simp at member; omega)).2
    exact Finset.mem_range.mpr (graph.node_lt read)
  obtain ⟨one, first, other, second, apart, same⟩ :=
    Finset.exists_ne_map_eq_of_card_lt_of_maps_to (by simp) inside
  rw [Finset.mem_range] at first second
  rcases Nat.lt_or_gt_of_ne apart with before | after
  · exact ⟨one, other, before, by omega, same⟩
  · exact ⟨other, one, after, by omega, same.symm⟩

theorem roams_of_long {few : Nat} (early : few ≤ 1) (enough : graph.size < count) : graph.Roams origin (graph.walked id few) := by
  obtain ⟨one, other, order, bound, same⟩ := walked_returns id count long enough
  refine ⟨graph.walked id other, walked_path id count long few other (by omega) (by omega), ?_⟩
  have onward := walked_path id count long (one + 1) other order (by omega)
  exact .head' (same ▸ long one (by omega)) onward

end

theorem circles_of_long (long : ∀ steps < graph.size + 1,
      graph.Passes origin (graph.walked origin steps) (graph.walked origin (steps + 1))) : graph.Circles origin :=
  ⟨graph.walked origin 1, (long 0 (Nat.succ_pos _)).2, roams_of_long origin _ long (le_refl 1) (Nat.lt_succ_self _)⟩

section

variable (verified : graph.Verified)

include verified

theorem verified_control (live : graph.Live id node) (takes : 0 < node.op.layout.controls) :
    ∃ previous definition, graph.controlInput id = .ok previous ∧ graph.Live previous definition := by
  have counted := verified.counted id node live
  have enough : node.op.layout.firstControl < node.inputs.length := by
    rw [counted, InputLayout.total]
    omega
  have taken : graph.controlInput id = .ok node.inputs[node.op.layout.firstControl] := by
    rw [graph.control_input_eq_ok live.1 (verified.fits id node live) counted, head?_eq_getElem?, controlInputs,
      getElem?_drop, add_zero, getElem?_eq_getElem enough]
  obtain ⟨definition, there⟩ := verified.inputs id node live _ (getElem_mem enough)
  exact ⟨_, definition, taken, there⟩

theorem verified_passes (live : graph.Live id node) (goes : ¬ graph.Halts origin id) :
    ∃ previous definition, graph.Passes origin id previous ∧ graph.Live previous definition := by
  have takes : 0 < node.op.layout.controls := by
    apply pos_of_ne_zero
    intro free
    exact goes ⟨node, live.1, .inr (.inr free)⟩
  obtain ⟨previous, definition, taken, there⟩ := verified_control verified live takes
  exact ⟨previous, definition, ⟨goes, taken⟩, there⟩

-- The walk is followed up to the first node that stops it.
theorem verified_walked (live : graph.Live id node) {count : Nat}
    (goes : ∀ steps < count, ¬ graph.Halts origin (graph.walked id steps)) :
    (∃ definition, graph.Live (graph.walked id count) definition) ∧
      ∀ steps < count, graph.Passes origin (graph.walked id steps) (graph.walked id (steps + 1)) := by
  induction count with
  | zero => exact ⟨⟨node, live⟩, fun _ impossible => absurd impossible (Nat.not_lt_zero _)⟩
  | succ count ih =>
    obtain ⟨⟨definition, there⟩, before⟩ := ih fun steps early => goes steps (Nat.lt_succ_of_lt early)
    obtain ⟨previous, further, step, onward⟩ := verified_passes verified there (goes count (Nat.lt_succ_self count))
    have next := walked_next step.2
    refine ⟨⟨further, next ▸ onward⟩, fun steps early => ?_⟩
    rcases Nat.lt_succ_iff_lt_or_eq.mp early with earlier | same
    · exact before steps earlier
    · rw [same, next]
      exact step

theorem settles_iff (id : NodeId) (node : Node) (live : graph.Live id node) (takes : 0 < node.op.layout.controls) :
    graph.Settles id ↔ ¬ graph.Circles id := by
  refine ⟨settles_not_circles, fun straight => ?_⟩
  obtain ⟨first, definition, taken, there⟩ := verified_control verified live takes
  by_contra unsettled
  -- Without a node that stops it, the walk is longer than the graph has nodes.
  have goes : ∀ steps, ¬ graph.Halts id (graph.walked first steps) := by
    intro steps
    induction steps using Nat.strongRecOn with
    | ind steps earlier =>
      intro halts
      obtain ⟨_, passes⟩ := verified_walked verified there earlier
      exact unsettled ⟨first, _, taken, walked_path first steps passes 0 steps (Nat.zero_le steps) (Nat.le_refl steps), halts⟩
  obtain ⟨_, passes⟩ := verified_walked verified there fun steps _ => goes steps
  exact straight ⟨first, taken, roams_of_long first _ passes (Nat.zero_le 1) (Nat.lt_succ_self _)⟩

end

structure Anchored (graph : Graph) : Prop where
  entry : ∃ node, graph.Live start node ∧ node.op.startsBlock = true
  exit : ∃ node, graph.node? stop = some node ∧ ∀ input ∈ node.inputs, ∃ definition, graph.Live input definition

def Stuck (graph : Graph) : Prop := ∃ id, graph.Needed id ∧ graph.Circles id

theorem needed_live (verified : graph.Verified) (anchored : graph.Anchored) (needed : graph.Needed id) :
    id = stop ∨ ∃ node, graph.Live id node := by
  have next : ∀ id input, (id = stop ∨ ∃ node, graph.Live id node) → input ∈ graph.inputsOf id →
      ∃ definition, graph.Live input definition := by
    rintro id input (last | ⟨node, live⟩) edge
    · obtain ⟨node, read, inputs⟩ := anchored.exit
      rw [last, graph.inputs_of_eq stop node read] at edge
      exact inputs input edge
    · rw [graph.inputs_of_eq id node live.1] at edge
      exact verified.inputs id node live input edge
  rcases needed with path | path
  · induction path with
    | refl =>
      obtain ⟨node, live, _⟩ := anchored.entry
      exact .inr ⟨node, live⟩
    | tail _ edge ih => exact .inr (next _ _ ih edge)
  · induction path with
    | refl => exact .inl rfl
    | tail _ edge ih => exact .inr (next _ _ ih edge)

end SeaOfNodes.Graph
