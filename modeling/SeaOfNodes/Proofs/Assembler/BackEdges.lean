import SeaOfNodes.Proofs.Assembler.InStep

/-! A jump back to a bound loop gives one more input to the loop and to every phi whose variable is in scope. -/

namespace SeaOfNodes.Assembly

open List

variable {id input : NodeId} {result : Unit} {ids : List NodeId} {label : LabelInfo} {binding : Binding}

open Assembler

variable {a b : Assembler}

theorem insert_at_tail (values tail : List NodeId) (input : NodeId) :
    (values ++ tail).insertIdx values.length input = values ++ [input] ++ tail := by
  induction values with
  | nil => rfl
  | cons first rest ih => simpa using ih

theorem add_path_widens {paths : Nat} {tail : List NodeId} (joins : a.graph.Join id paths tail)
    (run : addPath id input a = .ok result b) : ∃ next, b = { a with graph := next } ∧ a.graph.Widened next [id] := by
  obtain ⟨node, read, ⟨rfl, merge, phi⟩ | ⟨wide, next, lengthens, made, size, _, nodes⟩⟩ := add_path_cases run
  · obtain ⟨other, _, _, again, shape, _⟩ := joins
    rw [read] at again
    cases again
    rw [plain_join merge phi] at shape
    cases shape
  · refine ⟨next, made, ?_⟩
    cases lengthens with
    | merge count more op kind same sum =>
      have joins : ∀ count, (Operator.control (op count)).join? = some (count, 0) := by
        intro count
        rcases kind with rfl | rfl <;> rfl
      refine Graph.widened_update input read size nodes (same ▸ joins count) (joins more) sum ?_
      intro values after inputs _ none
      rw [eq_nil_of_length_eq_zero none, append_nil] at inputs ⊢
      rw [inputs]
    | phi count more op kind same sum =>
      have joins : ∀ count, (op count).join? = some (count, 1) := by
        intro count
        rcases kind with rfl | ⟨representation, rfl⟩ <;> rfl
      refine Graph.widened_update input read size nodes (same ▸ joins count) (joins more) sum ?_
      intro values after inputs length _
      dsimp only
      rw [inputs, ← length, insert_at_tail]

structure Stretched (ids : List NodeId) (a b : Assembler) : Prop where
  vars : b.vars = a.vars
  labels : b.labels = a.labels
  mode : b.journal.mode = a.journal.mode
  widened : b.Quiet → a.Quiet ∧ a.graph.Widened b.graph ids

theorem stretched_refl : Stretched [] a a :=
  ⟨rfl, rfl, rfl, fun quiet => ⟨quiet, Graph.widened_same (fun _ => rfl) (le_rfl)⟩⟩

theorem stretched_trans {c : Assembler} {first second : List NodeId} (begins : Stretched first a b) (goes : Stretched second b c) :
    Stretched (first ++ second) a c where
  vars := goes.vars.trans begins.vars
  labels := goes.labels.trans begins.labels
  mode := goes.mode.trans begins.mode
  widened quiet := by
    obtain ⟨calm, later⟩ := goes.widened quiet
    obtain ⟨still, before⟩ := begins.widened calm
    exact ⟨still, Graph.widened_trans before later⟩

theorem report_stretched {violation : Violation} (checks : a.journal.mode ≠ .silent) (run : report violation a = .ok result b) :
    Stretched ids a b := by
  obtain ⟨loud, mode, _, vars, labels⟩ := report_loud checks run
  exact ⟨vars, labels, mode, fun quiet => absurd quiet loud⟩

theorem add_path_stretched (joins : a.Quiet → ∃ paths tail, a.graph.Join id paths tail) (run : addPath id input a = .ok result b) :
    Stretched [id] a b := by
  have only : b.vars = a.vars ∧ b.labels = a.labels ∧ b.journal = a.journal := by
    obtain ⟨_, _, ⟨rfl, _⟩ | ⟨_, _, _, rfl, _⟩⟩ := add_path_cases run <;> exact ⟨rfl, rfl, rfl⟩
  obtain ⟨vars, labels, journal⟩ := only
  refine ⟨vars, labels, by rw [journal], fun quiet => ?_⟩
  have calm : a.Quiet := by rwa [Quiet, journal] at quiet
  obtain ⟨paths, tail, steps⟩ := joins calm
  obtain ⟨next, rfl, widened⟩ := add_path_widens steps run
  exact ⟨calm, widened⟩

theorem merge_back_stretched {id : VariableId} {info : VariableInfo} (checks : a.journal.mode ≠ .silent)
    (joins : a.Quiet → ∀ phi, binding.phis.lookup id = some phi → ∃ paths tail, a.graph.Join phi paths tail)
    (run : mergeBack label binding id info a = .ok result b) : Stretched (binding.phis.lookup id).toList a b := by
  rcases merge_back_cases run with ⟨phi, value, found, _, led⟩ | ⟨violation, done⟩ | ⟨none, rfl⟩
  · rw [found]
    exact add_path_stretched (fun quiet => joins quiet phi found) led
  · exact report_stretched checks done
  · rw [none]
    exact stretched_refl

theorem merge_back_all {live : List (VariableId × VariableInfo)} (checks : a.journal.mode ≠ .silent)
    (joins : a.Quiet → ∀ entry ∈ binding.phis, ∃ paths tail, a.graph.Join entry.2 paths tail)
    (run : (live.forM fun (id, current) => mergeBack label binding id current) a = .ok result b) :
    Stretched (live.flatMap fun entry => (binding.phis.lookup entry.1).toList) a b := by
  induction live generalizing a with
  | nil =>
    cases run
    exact stretched_refl
  | cons entry rest ih =>
    obtain ⟨_, middle, first, later⟩ := runs_bind.mp run
    have step := merge_back_stretched checks (fun quiet phi found => joins quiet (entry.1, phi) (mem_of_lookup _ _ found)) first
    refine stretched_trans step (ih (step.mode ▸ checks) (fun quiet other member => ?_) later)
    obtain ⟨calm, widened⟩ := step.widened quiet
    obtain ⟨paths, tail, join⟩ := joins calm other member
    exact ⟨_, tail, widened.kept _ _ _ join⟩

theorem loop_node_merge {loop : NodeId} (run : loopNode? binding a = .ok (some loop) b) : binding.merge = some loop := by
  cases found : binding.merge with
  | none =>
    simp only [loopNode?, found, runs_pure] at run
    obtain ⟨impossible, _⟩ := run
    cases impossible
  | some merge =>
    simp only [loopNode?, found, runs_bind] at run
    obtain ⟨op, _, _, rest⟩ := run
    split at rest
    · obtain ⟨same, _⟩ := runs_pure.mp rest
      exact same
    · obtain ⟨impossible, _⟩ := runs_pure.mp rest
      cases impossible

theorem live_variables_nodup (a : Assembler) : (a.liveVariables.map Prod.fst).Nodup := by
  refine Nodup.sublist (Sublist.map Prod.fst filter_sublist) ?_
  rw [Pool.entries, map_fst_zip]
  · exact nodup_range
  · simp [Pool.ids, Pool.toList]

-- Each variable in scope has one phi at most, so that no phi takes the path twice.
theorem back_edge_phis (a : Assembler) (distinct : (binding.slots.map Prod.fst).Nodup ∧ (binding.slots.map Prod.snd).Nodup)
    (declared : ∀ id phi, (some id, phi) ∈ binding.slots → ∃ info, a.vars.get? id = some info)
    (listed : ids = binding.effectPhi.toList ++ a.liveVariables.flatMap fun entry => (binding.phis.lookup entry.1).toList) :
    ids.Nodup ∧ (∀ phi ∈ ids, ∃ key, (key, phi) ∈ binding.slots) ∧
      ∀ key phi, (key, phi) ∈ binding.slots → phi ∈ ids ∨ ∃ id, key = some id ∧ Released a.vars id := by
  let back : List (Option VariableId × NodeId) :=
    (a.liveVariables.map Prod.fst).filterMap fun id => (binding.phis.lookup id).map (some id, ·)
  have whole : ids = (binding.effectPhi.toList.map (none, ·) ++ back).map Prod.snd := by
    have first : (binding.effectPhi.toList.map fun phi => ((none : Option VariableId), phi)).map Prod.snd =
        binding.effectPhi.toList := by simp
    have second : back.map Prod.snd = a.liveVariables.flatMap fun entry => (binding.phis.lookup entry.1).toList := by
      rw [← filterMap_eq_flatMap_toList, map_filterMap, filterMap_map]
      congr 1
      funext entry
      simp
    rw [listed, map_append, first, second]
  have inside : ∀ entry ∈ binding.effectPhi.toList.map (none, ·) ++ back, entry ∈ binding.slots := by
    rintro ⟨key, phi⟩ member
    rw [Binding.mem_slots]
    rcases mem_append.mp member with effect | variable_
    · obtain ⟨other, here, same⟩ := mem_map.mp effect
      cases same
      exact .inl ⟨rfl, by simpa using here⟩
    · obtain ⟨id, _, found⟩ := mem_filterMap.mp variable_
      obtain ⟨other, there, same⟩ := Option.map_eq_some_iff.mp found
      cases same
      exact .inr ⟨id, rfl, mem_of_lookup _ _ there⟩
  have once : (binding.effectPhi.toList.map (none, ·) ++ back).Nodup := by
    refine nodup_append.mpr ⟨?_, ?_, ?_⟩
    · cases binding.effectPhi <;> simp
    · refine Nodup.filterMap (fun id other entry here there => ?_) (live_variables_nodup a)
      obtain ⟨_, _, rfl⟩ := Option.map_eq_some_iff.mp here
      obtain ⟨_, _, same⟩ := Option.map_eq_some_iff.mp there
      exact (Option.some.inj (congrArg Prod.fst same)).symm
    · rintro entry effect _ variable_ rfl
      obtain ⟨_, _, rfl⟩ := mem_map.mp effect
      obtain ⟨id, _, found⟩ := mem_filterMap.mp variable_
      obtain ⟨_, _, same⟩ := Option.map_eq_some_iff.mp found
      cases congrArg Prod.fst same
  have unique := inj_on_of_nodup_map distinct.2
  refine ⟨?_, ?_, ?_⟩
  · rw [whole]
    exact Nodup.map_on (fun first here second there => unique (inside first here) (inside second there)) once
  · intro phi member
    rw [whole] at member
    obtain ⟨entry, here, rfl⟩ := mem_map.mp member
    exact ⟨entry.1, inside entry here⟩
  · intro key phi member
    rw [whole]
    rcases (binding.mem_slots key phi).mp member with ⟨rfl, effect⟩ | ⟨id, rfl, there⟩
    · exact .inl (mem_map.mpr ⟨(none, phi), mem_append_left _ (by simp [effect]), rfl⟩)
    obtain ⟨info, read⟩ := declared id phi member
    cases live : info.live with
    | false => exact .inr ⟨id, rfl, info, read, live⟩
    | true =>
      have scope : (id, info) ∈ a.liveVariables :=
        mem_filter.mpr ⟨(a.vars.mem_entries id info).mpr read, live⟩
      obtain ⟨found, looked⟩ : ∃ found, binding.phis.lookup id = some found := by
        cases looked : binding.phis.lookup id with
        | some found => exact ⟨found, rfl⟩
        | none =>
          have clash := lookup_eq_none_iff.mp looked (id, phi) there
          simp at clash
      have same := inj_on_of_nodup_map distinct.1 member
        ((binding.mem_slots (some id) found).mpr (.inr ⟨id, rfl, mem_of_lookup _ _ looked⟩)) rfl
      cases same
      refine .inl (mem_map.mpr ⟨(some id, phi), mem_append_right _ ?_, rfl⟩)
      exact mem_filterMap.mpr ⟨id, mem_map.mpr ⟨(id, info), scope, rfl⟩, by rw [looked]; rfl⟩

theorem back_edge_tied (joints : LabelId → Option Joint) (id : LabelId) (info : LabelInfo) (binding : Binding) (loop : NodeId)
    (position : Position) (result : Unit) (tied : Tied joints a) (found : joints id = some ⟨loop, binding.slots⟩)
    (run : (do
      addPath loop position.control
      if let some phi := binding.effectPhi then addPath phi position.effect
      a.liveVariables.forM fun (id, current) => mergeBack info binding id current : Assembly Unit) a = .ok result b) :
    Tied joints b ∧ b.labels = a.labels := by
  have known : a.Quiet → ∃ paths, Fed a.graph a.vars ⟨loop, binding.slots⟩ paths :=
    fun quiet => (tied.inStep quiet).fed id _ found
  have phis : a.Quiet → ∀ key phi, (key, phi) ∈ binding.slots → ∃ paths tail, a.graph.Join phi paths tail := by
    intro quiet key phi member
    obtain ⟨paths, fed⟩ := known quiet
    obtain ⟨count, joins, _⟩ := fed.phis key phi member
    exact ⟨count, _, joins⟩
  obtain ⟨_, first, widened, rest⟩ := runs_bind.mp run
  have begun := add_path_stretched (fun quiet => by
    obtain ⟨paths, fed⟩ := known quiet
    exact ⟨paths, [], fed.merge⟩) widened
  have later : ∀ {ids : List NodeId} {c : Assembler}, Stretched ids a c → c.Quiet → ∀ key phi, (key, phi) ∈ binding.slots →
      ∃ paths tail, c.graph.Join phi paths tail := by
    intro ids c stretched quiet key phi member
    obtain ⟨calm, wider⟩ := stretched.widened quiet
    obtain ⟨paths, tail, joins⟩ := phis calm key phi member
    exact ⟨_, tail, wider.kept _ _ _ joins⟩
  have brought : ∀ {ids : List NodeId} {c : Assembler}, Stretched ids a c →
      (a.liveVariables.forM fun (id, current) => mergeBack info binding id current : Assembly Unit) c = .ok result b →
      Stretched (a.liveVariables.flatMap fun entry => (binding.phis.lookup entry.1).toList) c b := by
    intro ids c stretched goes
    refine merge_back_all (stretched.mode ▸ tied.checks) (fun quiet entry member => ?_) goes
    exact later stretched quiet (some entry.1) entry.2 ((binding.mem_slots _ _).mpr (.inr ⟨entry.1, rfl, member⟩))
  have whole : Stretched (loop :: (binding.effectPhi.toList ++
      a.liveVariables.flatMap fun entry => (binding.phis.lookup entry.1).toList)) a b := by
    cases effect : binding.effectPhi with
    | none =>
      simp only [effect] at rest
      exact stretched_trans begun (brought begun rest)
    | some phi =>
      simp only [effect, runs_bind] at rest
      obtain ⟨_, second, threaded, rest⟩ := rest
      have step := add_path_stretched (fun quiet =>
        later begun quiet none phi ((binding.mem_slots _ _).mpr (.inl ⟨rfl, effect⟩))) threaded
      have both := stretched_trans begun step
      exact stretched_trans both (brought both rest)
  refine ⟨⟨whole.mode ▸ tied.checks, fun quiet => ?_⟩, whole.labels⟩
  obtain ⟨calm, wider⟩ := whole.widened quiet
  have steps := tied.inStep calm
  obtain ⟨once, listed, reached⟩ := back_edge_phis a (steps.distinct id _ found)
    (fun var phi member => steps.declared id _ var phi found member) rfl
  rw [whole.vars]
  exact in_step_back_edge steps found wider once listed reached

theorem keeps_arrive (id : LabelId) (position : Position) : Keeps (arrive id position) := by
  intro a result b tied run
  simp only [arrive, setLabelState, runs_bind, runs_get] at run
  obtain ⟨info, _, labelled, _, _, ⟨rfl, rfl⟩, rest⟩ := run
  obtain ⟨read, rfl⟩ := label_info_runs labelled
  cases state : info.state with
  | waiting arrivals =>
    simp only [state, runs_modify] at rest
    subst rest
    rw [joints_kept _ read (by simp [LabelInfo.joint?, state])]
    exact ⟨tied.checks, tied.inStep⟩
  | bound binding =>
    simp only [state, runs_bind, runs_modify] at rest
    obtain ⟨_, _, rfl, loop, _, looked, rest⟩ := rest
    obtain ⟨rfl, _⟩ := loop_node_runs looked
    -- The number of paths that a label counts is for messages only.
    have kept := joints_kept (.bound { binding with paths := binding.paths + 1 }) read
      (by simp [LabelInfo.joint?, state, Binding.joint?, Binding.slots])
    have relabelled : Tied a.joints { a with labels := a.labels.modify id fun info =>
        { info with state := .bound { binding with paths := binding.paths + 1 } } } := ⟨tied.checks, tied.inStep⟩
    cases loop with
    | none =>
      obtain ⟨loud, mode, _⟩ := report_loud relabelled.checks rest
      exact ⟨mode ▸ tied.checks, fun quiet => absurd quiet loud⟩
    | some loop =>
      have merge : binding.merge = some loop := loop_node_merge looked
      have found : a.joints id = some ⟨loop, binding.slots⟩ := by
        rw [joints, read]
        simp [LabelInfo.joint?, state, Binding.joint?, merge]
      obtain ⟨final, labels⟩ := back_edge_tied a.joints id info { binding with paths := binding.paths + 1 } loop position
        result relabelled found rest
      rw [joints_labels labels, kept]
      exact final

end SeaOfNodes.Assembly
