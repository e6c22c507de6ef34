import SeaOfNodes.Proofs.Assembler.Strokes
import SeaOfNodes.Proofs.Graph.Joins

/-! The invariant that ties the phis of an assembler to the paths into their merges, and the operations that touch neither. -/

namespace SeaOfNodes

open List SeaOfNodes.Graph

structure Joint where
  merge : NodeId
  phis : List (Option VariableId × NodeId)

def Binding.slots (binding : Binding) : List (Option VariableId × NodeId) :=
  binding.effectPhi.toList.map (none, ·) ++ binding.phis.map fun (id, phi) => (some id, phi)

theorem Binding.mem_slots (binding : Binding) (key : Option VariableId) (phi : NodeId) : (key, phi) ∈ binding.slots ↔
      key = none ∧ binding.effectPhi = some phi ∨ ∃ id, key = some id ∧ (id, phi) ∈ binding.phis := by
  simp [slots, eq_comm, and_comm]

def Binding.joint? (binding : Binding) : Option Joint := binding.merge.map fun merge => ⟨merge, binding.slots⟩

def LabelInfo.joint? (info : LabelInfo) : Option Joint :=
  match info.state with
  | .waiting _ => none
  | .bound binding => binding.joint?

namespace Assembler

def joints (a : Assembler) (label : LabelId) : Option Joint := (a.labels.get? label).bind LabelInfo.joint?

def Released (vars : Pool VariableInfo) (id : VariableId) : Prop := ∃ info, vars.get? id = some info ∧ info.live = false

-- Each phi of a joint has a value for every path into the merge, or fewer if its variable was released.
structure Fed (graph : Graph) (vars : Pool VariableInfo) (joint : Joint) (paths : Nat) : Prop where
  merge : graph.Join joint.merge paths []
  phis : ∀ key phi, (key, phi) ∈ joint.phis → ∃ count, graph.Join phi count [joint.merge] ∧
    (count = paths ∨ count < paths ∧ ∃ id, key = some id ∧ Released vars id)

structure InStep (graph : Graph) (vars : Pool VariableInfo) (joints : LabelId → Option Joint) : Prop where
  room : Graph.stop < graph.size
  exit : ∀ node, graph.node? Graph.stop = some node → node.op.join? = none
  merges : ∀ id node count, graph.node? id = some node → node.op.join? = some (count, 0) → graph.Join id count.toNat []
  phis : ∀ id node count, graph.node? id = some node → node.op.join? = some (count, 1) →
    ∃ label joint key, joints label = some joint ∧ (key, id) ∈ joint.phis
  fed : ∀ label joint, joints label = some joint → ∃ paths, Fed graph vars joint paths
  apart : ∀ label other joint more, joints label = some joint → joints other = some more → joint.merge = more.merge →
    label = other
  distinct : ∀ label joint, joints label = some joint → (joint.phis.map Prod.fst).Nodup ∧ (joint.phis.map Prod.snd).Nodup
  declared : ∀ label joint id phi, joints label = some joint → (some id, phi) ∈ joint.phis → ∃ info, vars.get? id = some info

section

variable {ids : List NodeId} {joint : Joint} {label : LabelId} {node : Node} {count : UInt32} {graph next : Graph}
  {vars : Pool VariableInfo} {joints : LabelId → Option Joint}
  (steps : InStep graph vars joints)

include steps

-- Only what the labels know of their phis is left to show.
theorem in_step_refed (widened : graph.Widened next ids)
    (fed : ∀ label joint, joints label = some joint → ∃ paths, Fed next vars joint paths) : InStep next vars joints where
  room := steps.room.trans_le widened.size
  exit node read := by
    cases shape : node.op.join? with
    | none => rfl
    | some found =>
      obtain ⟨former, before, there, same⟩ := widened.only stop node found.1 found.2 read shape
      rw [steps.exit former there] at same
      cases same
  merges id node count read shape := by
    obtain ⟨former, before, there, same⟩ := widened.only id node count 0 read shape
    have kept := widened.kept id _ [] (steps.merges id former before there same)
    exact (join_read kept read shape).1 ▸ kept
  phis id node count read shape := by
    obtain ⟨former, before, there, same⟩ := widened.only id node count 1 read shape
    exact steps.phis id former before there same
  fed := fed
  apart := steps.apart
  distinct := steps.distinct
  declared := steps.declared

theorem in_step_widened (widened : graph.Widened next []) : InStep next vars joints := by
  refine in_step_refed steps widened fun label joint found => ?_
  obtain ⟨paths, fed⟩ := steps.fed label joint found
  refine ⟨paths, widened.kept _ paths [] fed.merge, fun key phi member => ?_⟩
  obtain ⟨count, joins, counted⟩ := fed.phis key phi member
  exact ⟨count, widened.kept phi count _ joins, counted⟩

-- No variable is dropped, and none comes back into scope.
theorem in_step_vars {later : Pool VariableInfo}
    (aged : ∀ id info, vars.get? id = some info → ∃ next, later.get? id = some next ∧ (info.live = false → next.live = false)) :
    InStep graph later joints :=
  { steps with
    fed := fun label joint found => by
      obtain ⟨paths, fed⟩ := steps.fed label joint found
      refine ⟨paths, fed.merge, fun key phi member => ?_⟩
      obtain ⟨count, joins, counted⟩ := fed.phis key phi member
      refine ⟨count, joins, counted.imp_right ?_⟩
      rintro ⟨fewer, id, same, info, read, dead⟩
      obtain ⟨next, there, still⟩ := aged id info read
      exact ⟨fewer, id, same, next, there, still dead⟩
    declared := fun label joint id phi found member => by
      obtain ⟨info, read⟩ := steps.declared label joint id phi found member
      obtain ⟨next, there, _⟩ := aged id info read
      exact ⟨next, there⟩ }

omit steps in
theorem merge_ne_phi {paths count : Nat} {phi control : NodeId} (fed : Fed graph vars joint paths)
    (joins : graph.Join phi count [control]) : joint.merge ≠ phi := by
  rintro rfl
  have clash := (join_unique fed.merge joins).2
  cases clash

-- A path comes back to a merge, and each phi there takes a value along it unless its variable is out of scope.
theorem in_step_back_edge (found : joints label = some joint)
    (widened : graph.Widened next (joint.merge :: ids)) (once : ids.Nodup) (listed : ∀ phi ∈ ids, ∃ key, (key, phi) ∈ joint.phis)
    (reached : ∀ key phi, (key, phi) ∈ joint.phis → phi ∈ ids ∨ ∃ id, key = some id ∧ Released vars id) :
    InStep next vars joints := by
  obtain ⟨paths, before⟩ := steps.fed label joint found
  -- The phis in the list hang on this merge, so that they are neither merges nor phis of other labels.
  have unlisted : ∀ id count tail, graph.Join id count tail → tail ≠ [joint.merge] → ids.count id = 0 := by
    intro id count tail joins other
    rw [count_eq_zero]
    intro member
    obtain ⟨key, there⟩ := listed id member
    obtain ⟨last, phi, _⟩ := before.phis key id there
    exact other (join_unique joins phi).2
  refine in_step_refed steps widened fun other more there => ?_
  by_cases same : other = label
  · subst same
    rw [found] at there
    cases there
    refine ⟨paths + 1, ?_, fun key phi member => ?_⟩
    · have wide := widened.kept _ _ _ before.merge
      rwa [count_cons_self, unlisted _ _ _ before.merge (by simp)] at wide
    obtain ⟨count, joins, counted⟩ := before.phis key phi member
    have wide := widened.kept _ _ _ joins
    rw [count_cons_of_ne (merge_ne_phi before joins)] at wide
    refine ⟨_, wide, ?_⟩
    by_cases taken : phi ∈ ids
    · rw [count_eq_one_of_mem once taken]
      exact counted.imp (fun all => by rw [all]) fun few => ⟨Nat.succ_lt_succ few.1, few.2⟩
    · rw [count_eq_zero.mpr taken]
      have gone := (reached key phi member).resolve_left taken
      exact .inr ⟨by rcases counted with all | few <;> omega, gone⟩
  · obtain ⟨ways, kept⟩ := steps.fed other more there
    have apart : joint.merge ≠ more.merge := fun equal => same (steps.apart other label more joint there found equal.symm)
    refine ⟨ways, ?_, fun key phi member => ?_⟩
    · have wide := widened.kept _ _ _ kept.merge
      rwa [count_cons_of_ne apart, unlisted _ _ _ kept.merge (by simp)] at wide
    · obtain ⟨count, joins, counted⟩ := kept.phis key phi member
      have wide := widened.kept _ _ _ joins
      rw [count_cons_of_ne (merge_ne_phi before joins), unlisted _ _ _ joins (by simpa using Ne.symm apart)] at wide
      exact ⟨count, wide, counted⟩

-- A node comes to be that joins paths, at a label that none steps paths at before or that has one more phi now.
theorem in_step_push {label : LabelId} {after : Nat} {paths : Nat}
    (shape : node.op.join? = some (count, after)) (merge : after = 0 → (graph.push node).2.Join graph.size count.toNat [])
    (phi : after = 1 → ∃ key, (key, graph.size) ∈ joint.phis)
    (former : ∀ old, joints label = some old → ∀ entry ∈ old.phis, entry ∈ joint.phis)
    (fed : Fed (graph.push node).2 vars joint paths)
    (apart : ∀ other more, joints other = some more → more.merge = joint.merge → other = label)
    (distinct : (joint.phis.map Prod.fst).Nodup ∧ (joint.phis.map Prod.snd).Nodup)
    (declared : ∀ id phi, (some id, phi) ∈ joint.phis → ∃ info, vars.get? id = some info) :
    InStep (graph.push node).2 vars (Function.update joints label (some joint)) := by
  have found : ∀ {other more}, Function.update joints label (some joint) other = some more →
      other = label ∧ joint = more ∨ other ≠ label ∧ joints other = some more := by
    intro other more there
    by_cases same : other = label
    · rw [same, Function.update_self, Option.some.injEq] at there
      exact .inl ⟨same, there⟩
    · rw [Function.update_of_ne same] at there
      exact .inr ⟨same, there⟩
  refine ⟨?_, ?_, ?_, ?_, ?_, ?_, ?_, ?_⟩
  · rw [size_push]
    exact Nat.lt_succ_of_lt steps.room
  · intro last read
    rw [node_push, if_neg (steps.room.ne)] at read
    exact steps.exit last read
  · intro id other last read same
    rw [node_push] at read
    split at read
    · rename_i here
      cases read
      rw [shape] at same
      cases same
      exact here ▸ merge rfl
    · exact join_push node (steps.merges id other last read same)
  · intro id other last read same
    rw [node_push] at read
    split at read
    · rename_i here
      cases read
      rw [shape] at same
      cases same
      obtain ⟨key, member⟩ := phi rfl
      exact ⟨label, joint, key, Function.update_self .., here ▸ member⟩
    · obtain ⟨place, old, key, there, member⟩ := steps.phis id other last read same
      by_cases here : place = label
      · subst here
        exact ⟨place, joint, key, Function.update_self .., former old there _ member⟩
      · exact ⟨place, old, key, by rw [Function.update_of_ne here, there], member⟩
  · intro place more there
    rcases found there with ⟨_, rfl⟩ | ⟨_, old⟩
    · exact ⟨paths, fed⟩
    · obtain ⟨ways, kept⟩ := steps.fed place more old
      refine ⟨ways, join_push node kept.merge, fun key phi member => ?_⟩
      obtain ⟨last, joins, counted⟩ := kept.phis key phi member
      exact ⟨last, join_push node joins, counted⟩
  · intro first second one two there here same
    rcases found there with ⟨rfl, rfl⟩ | ⟨_, before⟩
    · rcases found here with ⟨rfl, _⟩ | ⟨_, old⟩
      · rfl
      · exact (apart second two old same.symm).symm
    · rcases found here with ⟨rfl, rfl⟩ | ⟨_, old⟩
      · exact apart first one before same
      · exact steps.apart first second one two before old same
  · intro place more there
    rcases found there with ⟨_, rfl⟩ | ⟨_, old⟩
    · exact distinct
    · exact steps.distinct place more old
  · intro place more id phi there member
    rcases found there with ⟨_, rfl⟩ | ⟨_, old⟩
    · exact declared id phi member
    · exact steps.declared place more id phi old member

theorem in_step_merge (label : LabelId) (node : Node) (count : UInt32)
    (fresh : joints label = none) (shape : node.op.join? = some (count, 0)) (counted : node.inputs.length = count.toNat) :
    InStep (graph.push node).2 vars (Function.update joints label (some ⟨graph.size, []⟩)) ∧
      (graph.push node).2.Join graph.size node.inputs.length [] := by
  have merge : (graph.push node).2.Join graph.size node.inputs.length [] :=
    push_join shape (append_nil _).symm counted
  refine ⟨in_step_push steps shape (fun _ => counted ▸ merge) nofun ?_
    ⟨merge, fun _ _ => nofun⟩ ?_ ⟨.nil, .nil⟩ fun _ _ => nofun, merge⟩
  · intro old there
    rw [fresh] at there
    cases there
  · intro other more there same
    obtain ⟨paths, fed⟩ := steps.fed other more there
    exact absurd same (ne_of_lt (join_lt fed.merge))

theorem in_step_phi {key : Option VariableId} {values : List NodeId}
    (found : joints label = some joint) (shape : node.op.join? = some (count, 1)) (inputs : node.inputs = values ++ [joint.merge])
    (counted : values.length = count.toNat) (paths : graph.Join joint.merge values.length [])
    (new : key ∉ joint.phis.map Prod.fst) (known : ∀ id, key = some id → ∃ info, vars.get? id = some info) :
    InStep (graph.push node).2 vars
      (Function.update joints label (some { joint with phis := joint.phis ++ [(key, graph.size)] })) := by
  obtain ⟨ways, fed⟩ := steps.fed label joint found
  obtain ⟨rfl, _⟩ := join_unique fed.merge paths
  obtain ⟨keys, ids⟩ := steps.distinct label joint found
  refine in_step_push steps shape nofun ?_ ?_ ⟨join_push node fed.merge, ?_⟩ ?_ ?_ ?_
  · exact fun _ => ⟨key, mem_append_right _ mem_cons_self⟩
  · intro old there entry member
    rw [found] at there
    cases there
    exact mem_append_left _ member
  · intro other phi member
    rcases mem_append.mp member with old | last
    · obtain ⟨some, joins, enough⟩ := fed.phis other phi old
      exact ⟨some, join_push node joins, enough⟩
    · cases mem_singleton.mp last
      exact ⟨_, push_join shape inputs counted, .inl rfl⟩
  · intro other more there same
    exact steps.apart other label more joint there found same
  · rw [map_append, map_append, nodup_append, nodup_append]
    refine ⟨⟨keys, by simp, ?_⟩, ids, by simp, ?_⟩
    · rintro first member _ same rfl
      have here : first = key := mem_singleton.mp same
      exact new (here ▸ member)
    · rintro first member _ same rfl
      obtain ⟨entry, listed, rfl⟩ := mem_map.mp member
      obtain ⟨some, joins, _⟩ := fed.phis entry.1 entry.2 listed
      exact absurd (mem_singleton.mp same) (ne_of_lt (join_lt joins))
  · intro id phi member
    rcases mem_append.mp member with old | last
    · exact steps.declared label joint id phi found old
    · cases mem_singleton.mp last
      exact known id rfl

end

-- While nothing has been reported, phis are in step with the merges that the labels are known to have.
structure Tied (joints : LabelId → Option Joint) (a : Assembler) : Prop where
  checks : a.journal.mode ≠ .silent
  inStep : a.Quiet → InStep a.graph a.vars joints

namespace Tied

variable {joints : LabelId → Option Joint} {a : Assembler} (tied : Tied joints a)

include tied

theorem regraph (work : Workspace) (mode : work.journal.mode = a.journal.mode) (calm : work.journal.violations = #[] → a.Quiet)
    (widened : InStep a.graph a.vars joints → a.graph.Widened work.graph []) : Tied joints { a with toWorkspace := work } :=
  ⟨by rw [show work.journal.mode = a.journal.mode from mode]; exact tied.checks, fun quiet => by
    have before := tied.inStep (calm quiet)
    exact in_step_widened before (widened before)⟩

theorem revars {vars : Pool VariableInfo}
    (aged : ∀ id info, a.vars.get? id = some info → ∃ next, vars.get? id = some next ∧ (info.live = false → next.live = false)) :
    Tied joints { a with vars := vars } :=
  ⟨tied.checks, fun quiet => in_step_vars (tied.inStep quiet) aged⟩

end Tied

theorem joints_labels {a b : Assembler} (same : b.labels = a.labels) : b.joints = a.joints := by
  funext label
  rw [joints, same, joints]

theorem joints_set (a : Assembler) (id : LabelId) (info : LabelInfo) (state : LabelState) (read : a.labels.get? id = some info) :
    joints { a with labels := a.labels.modify id fun info => { info with state := state } } =
      Function.update a.joints id (LabelInfo.joint? { info with state := state }) := by
  funext label
  by_cases same : label = id
  · subst same
    rw [Function.update_self, joints, Pool.get_modify, if_pos rfl, read]
    rfl
  · rw [Function.update_of_ne same, joints, Pool.get_modify, if_neg same, joints]

theorem joints_kept {a : Assembler} {id : LabelId} {info : LabelInfo} (state : LabelState) (read : a.labels.get? id = some info)
    (same : LabelInfo.joint? { info with state := state } = info.joint?) :
    joints { a with labels := a.labels.modify id fun info => { info with state := state } } = a.joints := by
  have here : a.joints id = info.joint? := by
    rw [joints, read]
    rfl
  rw [joints_set a id info state read, same, ← here, Function.update_eq_self]

end Assembler

namespace Assembly

open Assembler

variable {a b : Assembler}

theorem report_loud {violation : Violation} {result : Unit} (checks : a.journal.mode ≠ .silent)
    (run : report violation a = .ok result b) :
    ¬ b.Quiet ∧ b.journal.mode = a.journal.mode ∧ b.graph = a.graph ∧ b.vars = a.vars ∧ b.labels = a.labels := by
  obtain ⟨tolerant, rfl⟩ := report_runs run
  have recording : a.journal.mode = .recording := by cases mode : a.journal.mode <;> simp_all
  exact ⟨by simp [Quiet, Journal.report, recording], by simp [Journal.report, Journal.note, recording], rfl, rfl, rfl⟩

theorem plain_join {op : Operator} (merge : op.isMerge = false) (phi : op.isPhi = false) : op.join? = none := by
  cases op with
  | control kind =>
    cases kind with
    | merge count => cases merge
    | loop count => cases merge
    | _ => rfl
  | phi representation count => cases phi
  | effectPhi count => cases phi
  | _ => rfl

theorem tied_strokes :
    Strokes True fun a b => (∀ joints, Tied joints a → Tied joints b) ∧ b.labels = a.labels ∧ b.vars = a.vars where
  refl a := ⟨fun _ => id, rfl, rfl⟩
  trans a b c first second := ⟨fun joints tied => second.1 joints (first.1 joints tied), second.2.1.trans first.2.1,
    second.2.2.trans first.2.2⟩
  push a op inputs merge phi _ _ := ⟨fun _ tied => tied.regraph ⟨_, a.registry, a.journal⟩ rfl id fun _ =>
    a.graph.widened_push { op := op, inputs := inputs } (plain_join merge phi), rfl, rfl⟩
  constant a value := ⟨fun _ tied => tied.regraph ⟨_, a.registry, a.journal⟩ rfl id fun _ =>
    a.graph.widened_constant value, rfl, rfl⟩
  restyle a id change op inputs _ := ⟨fun _ tied => tied.regraph ⟨_, a.registry, a.journal⟩ rfl (fun calm => calm) fun _ =>
    a.graph.widened_restyle id op inputs, rfl, rfl⟩
  comment a text := ⟨fun _ tied => tied.regraph ⟨_, a.registry, a.journal⟩ rfl id fun _ =>
    widened_same (fun _ => rfl) (le_rfl), rfl, rfl⟩
  exit a terminator next made := by
    refine ⟨fun _ tied => tied.regraph ⟨_, a.registry, a.journal⟩ rfl id fun steps => ?_, rfl, rfl⟩
    -- The end is no merge.
    obtain ⟨node, read, size, _, nodes⟩ := a.graph.merge_to_end_nodes made
    refine widened_alike (size.symm.le) ?_ ?_
    · intro id former there joins
      have apart : id ≠ stop := by
        rintro rfl
        rw [steps.exit former there] at joins
        cases joins
      exact ⟨former, by rw [nodes, if_neg apart, there], rfl, rfl⟩
    · intro id last there joins
      rw [nodes] at there
      split at there
      · cases there
        cases joins
      · exact ⟨last, there, rfl⟩
  report a violation result b run := by
    refine ⟨fun joints tied => ?_, ?_, ?_⟩
    · obtain ⟨loud, mode, _⟩ := report_loud tied.checks run
      exact ⟨mode ▸ tied.checks, fun quiet => absurd quiet loud⟩
    · obtain ⟨_, _, rfl⟩ := runs_of_build.mp run
      rfl
    · obtain ⟨_, _, rfl⟩ := runs_of_build.mp run
      rfl
  annotate a work graph _ mode violations := ⟨fun _ tied => tied.regraph work mode (fun calm => violations.symm.trans calm) fun _ =>
    widened_same (fun _ => by rw [graph]) (by rw [graph]), rfl, rfl⟩
  current a current := ⟨fun _ tied => ⟨tied.checks, tied.inStep⟩, rfl, rfl⟩
  hooks a prologue epilogue := ⟨fun _ tied => ⟨tied.checks, tied.inStep⟩, rfl, rfl⟩
  breakOn a breakOn := ⟨fun _ tied => ⟨tied.checks, tied.inStep⟩, rfl, rfl⟩
  generated a generated := ⟨fun _ tied => ⟨tied.checks, tied.inStep⟩, rfl, rfl⟩

def Keeps {α : Type} (work : Assembly α) : Prop := ∀ a result b, Tied a.joints a → work a = .ok result b → Tied b.joints b

theorem keeps_iff_straight {α : Type} {work : Assembly α} :
    Keeps work ↔ Straight (fun a b => Tied a.joints a → Tied b.joints b) work :=
  ⟨fun keeps a result b run tied => keeps a result b tied run, fun straight a result b tied run => straight a result b run tied⟩

theorem keeps_strokes : Strokes True fun a b => Tied a.joints a → Tied b.joints b :=
  tied_strokes.carries (fun a => Tied a.joints a) fun a b kept tied => joints_labels kept.2.1 ▸ kept.1 a.joints tied

section

theorem keeps_set_variable (id : VariableId) (value : Option NodeId) : Keeps (setVariable id value) := by
  intro a result b tied run
  cases run
  refine tied.revars fun other info read => ?_
  rw [Pool.get_modify]
  split
  · rename_i same
    rw [← same, read]
    exact ⟨_, rfl, fun dead => dead⟩
  · exact ⟨info, read, fun dead => dead⟩

theorem keeps_release_variable (id : VariableId) : Keeps (releaseVariable id) := by
  intro a result b tied run
  cases run
  refine tied.revars fun other info read => ?_
  rw [Pool.get_modify]
  split
  · rename_i same
    rw [← same, read]
    exact ⟨_, rfl, fun _ => rfl⟩
  · exact ⟨info, read, fun dead => dead⟩

theorem keeps_new_variable (name : Option String) (representation : Representation) : Keeps (newVariable name representation) := by
  intro a result b tied run
  simp only [newVariable, runs_bind, runs_get, runs_modify, runs_pure] at run
  obtain ⟨_, _, ⟨rfl, rfl⟩, _, _, ⟨rfl, rfl⟩, _, _, rfl, _, rfl⟩ := run
  refine tied.revars fun other info read => ⟨info, ?_, id⟩
  have old : other < a.vars.size := (Array.getElem?_eq_some_iff.mp read).1
  rw [Pool.get_alloc, if_neg (old.ne), read]

theorem keeps_new_label (kind : LabelKind) (declared : List VariableId) : Keeps (newLabel kind declared) := by
  intro a result b tied run
  simp only [newLabel, runs_bind, runs_get, runs_modify, runs_pure] at run
  obtain ⟨_, _, ⟨rfl, rfl⟩, _, _, ⟨rfl, rfl⟩, _, _, rfl, _, rfl⟩ := run
  -- Nothing is known of a new label.
  have same : joints { a with labels := (a.labels.alloc
      { name := s!"L{a.labels.size}", kind := kind, declared := declared }).2 } = a.joints := by
    funext label
    rw [joints, Pool.get_alloc, joints]
    split
    · rename_i new
      rw [new, show a.labels.get? a.labels.size = none from Array.getElem?_eq_none (le_rfl)]
      rfl
    · rfl
  rw [same]
  exact ⟨tied.checks, tied.inStep⟩

end

end Assembly

end SeaOfNodes
