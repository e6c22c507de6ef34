import SeaOfNodes.Proofs.Graph.Built
import SeaOfNodes.Proofs.Graph.Relocated

/-! The replacement of a node by a value, on every graph whose use lists are in step. -/

namespace SeaOfNodes

open SeaOfNodes.Graph

def Node.ownEffect? (node : Node) : Option NodeId :=
  if 0 < node.op.layout.effects then node.inputs[node.op.layout.firstEffect]? else none

def Node.ownControl? (node : Node) : Option NodeId :=
  if 0 < node.op.layout.controls then node.inputs[node.op.layout.firstControl]? else none

namespace Graph

structure Replaceable (graph : Graph) (id : NodeId) (node : Node) (effect control : Option NodeId) : Prop where
  fits : node.op.fits = true
  effect : effect = none → 0 < node.op.layout.effects → node.ownEffect? ≠ none
  control : control = none → 0 < node.op.layout.controls → node.ownControl? ≠ none
  users : ∀ user, id ∈ graph.inputsOf user → ¬ graph.Overflows user

def orOwn (given : Option NodeId) (count : Nat) (input : Option NodeId) : Except Fault (Option NodeId) :=
  match given with
  | some target => .ok (some target)
  | none => if 0 < count then some <$> present input else .ok none

section

variable (graph : Graph) (id : NodeId) (node : Node) (read : graph.node? id = some node) (fits : node.op.fits)

include read fits

theorem layout_of_fits : graph.layout id = .ok node.op.layout := by
  rw [layout_runs read, Operator.checkedLayout, fits]
  rfl

theorem effect_input_runs (takes : 0 < node.op.layout.effects) :
    graph.effectInput id = present node.inputs[node.op.layout.firstEffect]? := by
  rw [effectInput, layout_of_fits graph id node read fits]
  simp only [bind, Except.bind, require, takes, decide_true, if_true, input, (graph.node_eq_ok id node).mpr read, add_zero]

theorem control_input_runs (takes : 0 < node.op.layout.controls) :
    graph.controlInput id = present node.inputs[node.op.layout.firstControl]? := by
  rw [controlInput, layout_of_fits graph id node read fits]
  simp only [bind, Except.bind, require, takes, decide_true, if_true, input, (graph.node_eq_ok id node).mpr read, add_zero]

theorem replace_with_value_eq (value : NodeId) (effect control : Option NodeId) :
    graph.replaceWithValue id value effect control =
      orOwn effect node.op.layout.effects node.inputs[node.op.layout.firstEffect]? >>= fun effect =>
        orOwn control node.op.layout.controls node.inputs[node.op.layout.firstControl]? >>= fun control =>
          (graph.useEdges id).foldlM (redirectEdge value effect control) graph := by
  have layout := layout_of_fits graph id node read fits
  have own := effect_input_runs graph id node read fits
  have source := control_input_runs graph id node read fits
  cases effect with
  | some effect =>
    cases control with
    | some control =>
      rw [replaceWithValue, layout]
      rfl
    | none =>
      by_cases second : 0 < node.op.layout.controls
      · simp only [replaceWithValue, layout, orOwn, bind, Except.bind, second, if_true, source]
        rfl
      · simp only [replaceWithValue, layout, orOwn, bind, Except.bind, second, if_false]
        rfl
  | none =>
    by_cases first : 0 < node.op.layout.effects
    · simp only [replaceWithValue, layout, orOwn, bind, Except.bind, first, if_true, own]
      cases control with
      | some control => rfl
      | none =>
        by_cases second : 0 < node.op.layout.controls
        · simp only [second, if_true, source]
        · simp only [second, if_false]
          rfl
    · simp only [replaceWithValue, layout, orOwn, bind, Except.bind, first, if_false]
      cases control with
      | some control => rfl
      | none =>
        by_cases second : 0 < node.op.layout.controls
        · simp only [second, if_true, source]
          rfl
        · simp only [second, if_false]
          rfl

end

theorem or_own_missing (given : Option NodeId) (count : Nat) (input : Option NodeId) (missing : given = none ∧ 0 < count ∧ input = none) :
    orOwn given count input = .error .assertion := by
  obtain ⟨rfl, takes, rfl⟩ := missing
  rw [orOwn, if_pos takes]
  rfl

theorem or_own_found (given : Option NodeId) (count : Nat) (input : Option NodeId) (found : ¬ (given = none ∧ 0 < count ∧ input = none)) :
    orOwn given count input = .ok (given.or (if 0 < count then input else none)) := by
  cases given with
  | some target => rfl
  | none =>
    by_cases takes : 0 < count
    · cases input with
      | none => exact absurd ⟨rfl, takes, rfl⟩ found
      | some input =>
        rw [orOwn, if_pos takes, if_pos takes]
        rfl
    · rw [orOwn, if_neg takes, if_neg takes]
      rfl

end Graph

theorem replacement_exact (graph : Graph) (id value : NodeId) (effect control : Option NodeId) (node : Node)
    (mirrored : graph.Mirrored) (read : graph.node? id = some node) (valueStays : graph.bypasses id value = false)
    (effectStays : ∀ target, effect.or node.ownEffect? = some target → graph.bypasses id target = false) :
    (graph.Replaceable id node effect control → ∃ new, graph.replaceWithValue id value effect control = .ok new ∧
      graph.Replaced id value (effect.or node.ownEffect?) (control.or node.ownControl?) new) ∧
    (¬ graph.Replaceable id node effect control →
      ∃ fault, graph.replaceWithValue id value effect control = .error fault ∧ fault.Panic) := by
  cases fits : node.op.fits with
  | false =>
    refine ⟨fun able => ?_, fun _ => ⟨.overflow, ?_, .inl rfl⟩⟩
    · rw [able.fits] at fits
      cases fits
    · rw [replaceWithValue, layout_runs read, Operator.checkedLayout, fits]
      rfl
  | true =>
    rw [replace_with_value_eq graph id node read fits]
    by_cases lacksEffect : effect = none ∧ 0 < node.op.layout.effects ∧ node.inputs[node.op.layout.firstEffect]? = none
    · rw [or_own_missing _ _ _ lacksEffect]
      refine ⟨fun able => absurd ?_ (able.effect lacksEffect.1 lacksEffect.2.1), fun _ => ⟨.assertion, rfl, .inr rfl⟩⟩
      rw [Node.ownEffect?, if_pos lacksEffect.2.1, lacksEffect.2.2]
    rw [or_own_found _ _ _ lacksEffect]
    by_cases lacksControl : control = none ∧ 0 < node.op.layout.controls ∧ node.inputs[node.op.layout.firstControl]? = none
    · rw [or_own_missing _ _ _ lacksControl]
      refine ⟨fun able => absurd ?_ (able.control lacksControl.1 lacksControl.2.1), fun _ => ⟨.assertion, rfl, .inr rfl⟩⟩
      rw [Node.ownControl?, if_pos lacksControl.2.1, lacksControl.2.2]
    rw [or_own_found _ _ _ lacksControl]
    rcases @redirect_all_replaces graph id value (effect.or node.ownEffect?) (control.or node.ownControl?) mirrored valueStays
      effectStays with ⟨new, run, narrow, reached⟩ | ⟨run, user, input, wide⟩
    · refine ⟨fun _ => ⟨new, run, reached⟩, fun unable => absurd ⟨fits, ?_, ?_, narrow⟩ unable⟩
      · intro absent takes missing
        rw [Node.ownEffect?, if_pos takes] at missing
        exact lacksEffect ⟨absent, takes, missing⟩
      · intro absent takes missing
        rw [Node.ownControl?, if_pos takes] at missing
        exact lacksControl ⟨absent, takes, missing⟩
    · exact ⟨fun able => absurd wide (able.users user input), fun _ => ⟨.overflow, run, .inl rfl⟩⟩

def caughtResult : List Edit :=
  [.int32Constant 1, .addNode (.create .iterResult) [2, 2, 2, 0, 0] none, .addNode (.control .ifSuccess) [3] none,
   .addNode (.control .ifException) [3, 3] none, .addNode (.control (.ret 1)) [2, 3, 3, 4] none,
   .addNode (.control (.merge 2)) [0, 4] none, .kill 7, .appendInput 7 3, .appendInput 7 4]

theorem caught_result_replaced :
    ∃ node, (Graph.built caughtResult).node? 3 = some node ∧ (Graph.built caughtResult).Replaceable 3 node none none ∧
      ∃ new, (Graph.built caughtResult).replaceWithValue 3 2 none none = .ok new ∧
        (Graph.built caughtResult).Replaced 3 2 (some 0) (some 0) new ∧
        new.inputsOf 4 = [] ∧ new.inputsOf 5 = [0, 0] ∧ new.inputsOf 6 = [2, 2, 0, 0] ∧ new.inputsOf 7 = [3, 0] := by
  have narrow : ∀ user < 8, ((built caughtResult).node? user).all (fun node => node.op.fits) = true := by decide +kernel
  have size : (built caughtResult).size = 8 := by decide +kernel
  have ran : ((built caughtResult).replaceWithValue 3 2 none none).toOption.any (fun new =>
      new.inputsOf 4 = [] && new.inputsOf 5 = [0, 0] && new.inputsOf 6 = [2, 2, 0, 0] && new.inputsOf 7 = [3, 0]) = true := by
    decide +kernel
  have read : (built caughtResult).node? 3 = some { op := .create .iterResult, inputs := [2, 2, 2, 0, 0] } := by decide +kernel
  have able : (built caughtResult).Replaceable 3 { op := .create .iterResult, inputs := [2, 2, 2, 0, 0] } none none := by
    refine ⟨by decide, by decide, by decide, ?_⟩
    rintro user _ ⟨node, live, wide⟩
    have fits := narrow user (size ▸ node_lt _ live.1)
    rw [live.1, Option.all_some, wide] at fits
    cases fits
  obtain ⟨new, run, reached⟩ := (replacement_exact _ 3 2 none none _ (built_mirrored caughtResult) read (by decide +kernel)
    (by rintro _ ⟨⟩; decide +kernel)).1 able
  rw [run] at ran
  simp only [Except.toOption, Option.any_some, Bool.and_eq_true, decide_eq_true_eq, and_assoc] at ran
  exact ⟨_, read, able, new, run, reached, ran⟩

def ownProjection : List Edit :=
  [.int32Constant 1, .addNode (.control .ifSuccess) [0] none, .replaceInput 3 0 3, .addNode (.control (.ret 1)) [2, 3, 0, 3] none]

theorem own_projection_keeps_kinds : (Graph.built ownProjection).Mirrored ∧ (Graph.built ownProjection).bypasses 3 3 = true ∧
      (Graph.built ownProjection).bypasses 3 2 = false ∧ (Graph.built ownProjection).bypasses 3 0 = false ∧
      ∃ new, (Graph.built ownProjection).replaceWithValue 3 2 none (some 0) = .ok new ∧ new.inputsOf 4 = [2, 2, 0, 0] := by
  refine ⟨built_mirrored _, by decide +kernel, by decide +kernel, by decide +kernel, ?_⟩
  have ran : ((built ownProjection).replaceWithValue 3 2 none (some 0)).toOption.any
      (fun new => new.inputsOf 4 = [2, 2, 0, 0]) = true := by decide +kernel
  obtain ⟨new, run, inputs⟩ := (Option.any_eq_true _ _).mp ran
  exact ⟨new, ok_of_to_option _ _ run, by simpa using inputs⟩

end SeaOfNodes
