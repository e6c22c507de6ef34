import SeaOfNodes.Proofs.Assembler.Phis
import SeaOfNodes.Proofs.Assembler.Turns

/-! Calls and their descriptors. -/

namespace SeaOfNodes

variable {id : NodeId}

structure Node.Fits (node : Node) (site : CallSite) (callee : CallDescriptor) : Prop where
  values : site.valueInputs.toNat = callee.inputCount
  returns : site.returns = UInt32.ofNat callee.returnCount
  properties : site.properties = callee.properties
  frameState : site.frameState = false
  inputs : node.inputs.length = callee.inputCount + 2

namespace Assembler

variable {next : Graph}

structure Calls (a : Assembler) : Prop where
  checks : a.journal.mode ≠ .silent
  fit : a.Quiet → ∀ id node site, a.graph.node? id = some node → node.op.callSite? = some site →
    ∃ callee, a.registry.get? site.descriptor = some callee ∧ node.Fits site callee

structure Clear (a b : Assembler) : Prop where
  checks : a.journal.mode ≠ .silent → b.journal.mode ≠ .silent
  quiet : a.journal.mode ≠ .silent → b.Quiet → a.Quiet
  registry : a.registry.Retains b.registry
  calls : ∀ id node, b.graph.node? id = some node → node.op.callSite? ≠ none →
    ∃ former, a.graph.node? id = some former ∧ former.op = node.op ∧ former.inputs = node.inputs

variable {a b : Assembler}

theorem Clear.trans {c : Assembler} (first : Clear a b) (second : Clear b c) : Clear a c where
  checks on := second.checks (first.checks on)
  quiet on calm := first.quiet on (second.quiet (first.checks on) calm)
  registry id callee known := second.registry id callee (first.registry id callee known)
  calls id node read site := by
    obtain ⟨between, there, op, inputs⟩ := second.calls id node read site
    obtain ⟨former, here, same, kept⟩ := first.calls id between there (op ▸ site)
    exact ⟨former, here, same.trans op, kept.trans inputs⟩

theorem Calls.later (calls : a.Calls) (clear : Clear a b) : b.Calls where
  checks := clear.checks calls.checks
  fit quiet id node site read names := by
    obtain ⟨former, there, op, inputs⟩ := clear.calls id node read (by simp [names])
    obtain ⟨callee, known, fits⟩ := calls.fit (clear.quiet calls.checks quiet) id former site there (op ▸ names)
    exact ⟨callee, clear.registry _ _ known, { fits with inputs := inputs ▸ fits.inputs }⟩

theorem clear_same (graph : b.graph = a.graph) (registry : a.registry.Retains b.registry)
    (mode : b.journal.mode = a.journal.mode) (quiet : b.Quiet → a.Quiet) : Clear a b where
  checks on := mode ▸ on
  quiet _ := quiet
  registry := registry
  calls _ node read _ := ⟨node, graph ▸ read, rfl, rfl⟩

theorem clear_refl (a : Assembler) : Clear a a := clear_same rfl a.registry.retains_refl rfl id

theorem clear_graph (calls : ∀ id node, next.node? id = some node → node.op.callSite? ≠ none → ∃ former, a.graph.node? id = some
      former ∧ former.op = node.op ∧ former.inputs = node.inputs) : Clear a { a with graph := next } where
  checks on := on
  quiet _ calm := calm
  registry := a.registry.retains_refl
  calls := calls

theorem clear_push (node : Node) (plain : node.op.callSite? = none) : Clear a { a with graph := (a.graph.push node).2 } := by
  refine clear_graph fun id other read site => ?_
  rw [Graph.node_push] at read
  split at read
  · cases read
    exact absurd plain site
  · exact ⟨other, read, rfl, rfl⟩

-- One node is replaced by one that is no call.
theorem clear_update {node : Node} (plain : node.op.callSite? = none)
    (nodes : ∀ other, next.node? other = if other = id then some node else a.graph.node? other) :
    Clear a { a with graph := next } := by
  refine clear_graph fun other last read site => ?_
  rw [nodes] at read
  split at read
  · cases read
    exact absurd plain site
  · exact ⟨last, read, rfl, rfl⟩

end Assembler

namespace Assembly

variable {result : Unit} {op : Operator}

open Assembler

variable {a b : Assembler}

theorem report_clear {violation : Violation} (run : report violation a = .ok result b) : Clear a b := by
  obtain ⟨tolerant, rfl⟩ := report_runs run
  cases mode : a.journal.mode with
  | silent =>
    rw [Journal.report, mode]
    exact clear_refl a
  | validating => exact absurd mode tolerant
  | recording =>
    rw [Journal.report, mode]
    exact clear_same rfl a.registry.retains_refl rfl fun calm => absurd calm (by simp [Quiet])

theorem clear_strokes : Strokes False Clear where
  refl := clear_refl
  trans _ _ _ first second := first.trans second
  push a op inputs _ _ plain _ := clear_push { op := op, inputs := inputs } (plain.resolve_right id)
  constant a value := by
    rw [Graph.constant]
    split
    · exact clear_refl a
    · exact (clear_push { op := .constant value, inputs := [] } rfl).trans
        (clear_graph fun id node read _ => ⟨node, read, rfl, rfl⟩)
  restyle a id change op inputs _ := by
    refine clear_graph fun other node read _ => ?_
    rw [Graph.node_modify] at read
    split at read
    · rename_i same
      obtain ⟨former, there, rfl⟩ := Option.map_eq_some_iff.mp read
      exact ⟨former, same ▸ there, (op former).symm, (inputs former).symm⟩
    · exact ⟨node, read, rfl, rfl⟩
  comment a text := clear_graph fun id node read _ => ⟨node, read, rfl, rfl⟩
  exit a terminator next made := by
    obtain ⟨node, _, _, _, nodes⟩ := a.graph.merge_to_end_nodes made
    exact clear_update rfl nodes
  report a violation result b run := report_clear run
  annotate a work graph registry mode violations := clear_same graph registry mode fun calm => violations.symm.trans calm
  current a _ := clear_same rfl a.registry.retains_refl rfl id
  hooks a _ _ := clear_same rfl a.registry.retains_refl rfl id
  breakOn a _ := clear_same rfl a.registry.retains_refl rfl id
  generated a _ := clear_same rfl a.registry.retains_refl rfl id

theorem join_calls_nothing (joins : op.isMerge ∨ op.isPhi) : op.callSite? = none := by
  cases op with
  | call site | tailCall site => rcases joins with impossible | impossible <;> cases impossible
  | _ => rfl

theorem clear_turns : Turns Clear where
  join a op inputs joins _ := clear_push { op := op, inputs := inputs } (join_calls_nothing joins)
  path a id input result b run := by
    obtain ⟨node, _, ⟨rfl, _⟩ | ⟨wide, next, lengthens, rfl, _, _, nodes⟩⟩ := add_path_cases run
    · exact clear_refl b
    · refine clear_update ?_ nodes
      cases lengthens with
      | merge count more op kind same sum => rfl
      | phi count more op kind same sum => rcases kind with rfl | ⟨_, rfl⟩ <;> rfl
  labels a _ := clear_same rfl a.registry.retains_refl rfl id
  vars a _ := clear_same rfl a.registry.retains_refl rfl id

theorem Turns.carries {holds : Assembler → Assembler → Prop} (turns : Turns holds) {good : Assembler → Prop}
    (later : ∀ a b, holds a b → good a → good b) : Turns fun a b => good a → good b where
  join a op inputs joins counted := later _ _ (turns.join a op inputs joins counted)
  path a id input result b run := later _ _ (turns.path a id input result b run)
  labels a labels := later _ _ (turns.labels a labels)
  vars a vars := later _ _ (turns.vars a vars)

section

variable {site : CallSite} {callee : CallDescriptor}

theorem call_total (calls : op.callSite? = some site) (frameState : site.frameState = false) :
    op.layout.effects = 1 ∧ op.layout.controls = 1 ∧ op.layout.total = site.valueInputs.toNat + 2 := by
  cases op with
  | call other | tailCall other =>
    cases calls
    simp [Operator.layout, InputLayout.total, InputLayout.firstControl, InputLayout.firstEffect, InputLayout.frameStateIndex,
      frameState]
  | _ => cases calls

-- The one place where a call node is made.
theorem add_call_fits {inputs : List NodeId} (calls : op.callSite? = some site)
    (known : a.registry.get? site.descriptor = some callee) (values : a.Quiet → inputs.length = callee.inputCount + 2)
    (returns : site.returns = UInt32.ofNat callee.returnCount) (properties : site.properties = callee.properties)
    (frameState : site.frameState = false) (before : a.Calls) (run : addNode op inputs a = .ok id b) : b.Calls := by
  simp only [addNode, runs_bind, runs_of_build, runs_pure] at run
  obtain ⟨_, _, ⟨_, done, rfl⟩, _, _, marked, rfl, rfl⟩ := run
  obtain ⟨graph, made, rfl⟩ := Build.runs_edit.mp done
  obtain ⟨_, counted, same⟩ := (Graph.add_node_eq_ok _).mp made
  cases same
  have pushed : Calls { a with graph := (a.graph.push { op := op, inputs := inputs }).2 } := by
    refine ⟨before.checks, fun quiet other node named read names => ?_⟩
    rw [Graph.node_push] at read
    split at read
    · cases read
      obtain rfl : site = named := Option.some.inj (calls.symm.trans names)
      obtain ⟨_, _, total⟩ := call_total calls frameState
      have length := values quiet
      exact ⟨callee, known, by omega, returns, properties, frameState, length⟩
    · exact before.fit quiet other node named read names
  exact pushed.later (straight_mark_breakpoint clear_strokes _ _ _ _ marked)

theorem effect_call_fits {values : List NodeId} {operation : String} (calls : op.callSite? = some site)
    (known : a.registry.get? site.descriptor = some callee) (enough : a.Quiet → values.length = callee.inputCount)
    (returns : site.returns = UInt32.ofNat callee.returnCount) (properties : site.properties = callee.properties)
    (frameState : site.frameState = false) (before : a.Calls) (run : addEffectNode op values operation a = .ok id b) :
    b.Calls := by
  obtain ⟨position, c, placed, run⟩ := runs_bind.mp run
  obtain ⟨layout, _, checked, run⟩ := runs_bind.mp run
  simp only [runs_of_except, checked_layout_eq_ok] at checked
  obtain ⟨⟨_, rfl⟩, rfl⟩ := checked
  obtain ⟨made, d, added, rest⟩ := runs_bind.mp run
  have clear : Clear a c := clear_strokes.position operation a position c placed
  obtain ⟨effects, controls, _⟩ := call_total calls frameState
  have here : d.Calls := by
    refine add_call_fits calls (clear.registry _ _ known) (fun quiet => ?_) returns properties frameState (before.later clear) added
    have length := enough (clear.quiet before.checks quiet)
    simp [effects, controls, length]
  refine here.later (clear_strokes.get (fun now => ?_) d id b rest)
  split
  · exact clear_strokes.seq (clear_strokes.set_current _) (clear_strokes.pure _)
  · exact clear_strokes.pure _

theorem check_call_counts {count : Nat} {tail : Bool} (checks : a.journal.mode ≠ .silent)
    (run : checkCall callee count tail a = .ok result b) (quiet : b.Quiet) : count = callee.parameterCount := by
  simp only [checkCall, Assembly.checks, runs_bind, runs_get, runs_pure] at run
  obtain ⟨_, _, ⟨_, _, ⟨rfl, rfl⟩, rfl, rfl⟩, rest⟩ := run
  have on : a.journal.checks := by simp [Journal.checks, checks]
  rw [if_pos on] at rest
  split at rest
  · -- A wrong count is reported, and stays so.
    obtain ⟨_, c, loud, later⟩ := runs_bind.mp rest
    obtain ⟨reported, mode, _⟩ := report_loud checks loud
    have clear : Clear c b := by
      split at later
      · exact straight_report clear_strokes _ c _ b later
      · exact clear_strokes.pure _ c _ b later
    exact absurd (clear.quiet (mode ▸ checks) quiet) reported
  · rename_i same
    exact Decidable.not_not.mp same

theorem call_keeps (descriptor : DescriptorId) (target : NodeId) (context : Option NodeId) (arguments : List NodeId) (tail : Bool) :
    Straight (fun a b => a.Calls → b.Calls) (call descriptor target context arguments tail) := by
  intro a id b run before
  simp only [call, runs_bind, runs_get, runs_of_except] at run
  obtain ⟨_, _, ⟨rfl, rfl⟩, callee, _, ⟨found, rfl⟩, _, c, checked, rest⟩ := run
  have known : a.registry.get? descriptor = some callee := present_eq_ok.mp found
  have clear : Clear a c := straight_check_call clear_strokes.discipline [] a _ c checked
  have counted : c.Quiet → (target :: (arguments ++ context.toList)).length = callee.inputCount := by
    intro quiet
    have count := check_call_counts before.checks checked quiet
    rw [List.length_cons, count, CallDescriptor.inputCount, add_comm]
  split at rest
  · obtain ⟨made, d, emitted, later⟩ := runs_bind.mp rest
    have here := effect_call_fits rfl (clear.registry _ _ known) counted rfl rfl rfl (before.later clear) emitted
    exact here.later (straight_close clear_strokes made d id b later)
  · obtain ⟨_, d, hooked, rest⟩ := runs_bind.mp rest
    obtain ⟨made, e, emitted, later⟩ := runs_bind.mp rest
    have quietly : Clear c d := straight_run_prologue clear_strokes.discipline [] c _ d hooked
    have here := effect_call_fits rfl (quietly.registry _ _ (clear.registry _ _ known))
      (fun quiet => counted (quietly.quiet (clear.checks before.checks) quiet)) rfl rfl rfl ((before.later clear).later quietly) emitted
    exact here.later (clear_strokes.seq (straight_run_epilogue clear_strokes.discipline []) (clear_strokes.pure made)
      e id b later)

end

theorem command_calls (command : Command) : Straight (fun a b => a.Calls → b.Calls) command.run :=
  Steers.command (clear_strokes.carries _ fun _ _ clear calls => calls.later clear)
    (turns_steer (clear_strokes.carries _ fun _ _ clear calls => calls.later clear)
      (clear_turns.carries fun _ _ clear calls => calls.later clear)) call_keeps command

end Assembly

inductive Linked (descriptor : CallDescriptor) (config : AssemblerConfig) : Assembler → Prop
  | start (a : Assembler) (journal : Journal) (checks : journal.mode ≠ .silent)
      (run : Assembler.start descriptor config journal = .ok a) : Linked descriptor config a
  | step (a b : Assembler) (command : Command) (outcome : Outcome) (before : Linked descriptor config a)
      (run : command.run a = .ok outcome b) : Linked descriptor config b
  | intern (a b : Assembler) (callee : CallDescriptor) (id : DescriptorId) (before : Linked descriptor config a)
      (run : Assembly.ofBuild (Build.intern callee) a = .ok id b) : Linked descriptor config b
  | generate (a b : Assembler) (name : String) (flags : CodeFlags) (limit : Nat) (code : Except CompileError Listing)
      (before : Linked descriptor config a) (run : Assembly.generate name flags limit a = .ok code b) :
      Linked descriptor config b

section

variable {descriptor : CallDescriptor} {config : AssemblerConfig} {a : Assembler}

theorem Assembled.linked (assembled : Assembled descriptor config a) : Linked descriptor config a := by
  induction assembled with
  | start a journal checks run => exact .start a journal checks run
  | step a b command outcome _ run ih => exact .step a b command outcome ih run
  | generate a b name flags limit code _ run ih => exact .generate a b name flags limit code ih run

theorem Linked.calls (linked : Linked descriptor config a) : a.Calls := by
  induction linked with
  | start a journal checks run =>
    obtain ⟨kept, _, plain⟩ := Assembler.start_nodes (fun op => op.callSite? = none) rfl rfl (fun _ => rfl) run
    refine ⟨kept ▸ checks, fun _ id node site read names => ?_⟩
    rw [plain id node read] at names
    cases names
  | step a b command outcome _ run ih => exact Assembly.command_calls command a outcome b run ih
  | intern a b callee id _ run ih => exact ih.later (Assembly.straight_intern Assembly.clear_strokes callee a id b run)
  | generate a b name flags limit code _ run ih =>
    exact ih.later (Assembly.straight_generate Assembly.clear_strokes.discipline [] name flags limit a code b run)

end

-- Every call that was emitted without a violation names a known descriptor.
theorem call_nodes_fit_descriptors (descriptor : CallDescriptor) (config : AssemblerConfig) (a : Assembler)
    (linked : Linked descriptor config a) (calm : a.journal.violations = #[]) (id : NodeId) (node : Node) (site : CallSite)
    (read : a.graph.node? id = some node) (calls : node.op = .call site ∨ node.op = .tailCall site) :
    ∃ callee, a.registry.get site.descriptor = .ok callee ∧ site.valueInputs.toNat = callee.inputCount ∧
      site.returns = UInt32.ofNat callee.returnCount ∧ site.properties = callee.properties ∧ site.frameState = false ∧
      node.inputs.length = callee.inputCount + 2 := by
  have names : node.op.callSite? = some site := by rcases calls with op | op <;> rw [op] <;> rfl
  obtain ⟨callee, known, fits⟩ := linked.calls.fit calm id node site read names
  exact ⟨callee, present_eq_ok.mpr known, fits.values, fits.returns, fits.properties, fits.frameState, fits.inputs⟩

namespace Assembler

def selfCalling : Option Assembler := follow (.function 1 { needsFrameState := true }) {} [.call 0 2 (some 5) [2, 3, 4]]

def selfSite : CallSite := { descriptor := 0, valueInputs := 5, returns := 1, frameState := false, properties := .none }

theorem self_calling_read :
    ∃ a node, selfCalling = some a ∧ a.journal.violations = #[] ∧ a.graph.node? 6 = some node ∧ node.op = .call selfSite ∧
      a.registry.get 0 = .ok (.function 1 { needsFrameState := true }) := by
  have checks : (selfCalling.any fun a => a.journal.violations.isEmpty &&
      ((a.graph.node? 6).any fun node => node.op = .call selfSite) &&
      (a.registry.get 0).toOption == some (.function 1 { needsFrameState := true })) := by
    decide
  simp only [Option.any_eq_true, Bool.and_eq_true, Array.isEmpty_iff, decide_eq_true_eq, beq_iff_eq] at checks
  obtain ⟨a, followed, ⟨calm, node, read, op⟩, known⟩ := checks
  exact ⟨a, node, followed, calm, read, op, ok_of_to_option _ _ known⟩

end Assembler

theorem self_call_lacks_frame_state :
    ∃ a node callee, Linked (.function 1 { needsFrameState := true }) {} a ∧ a.journal.violations = #[] ∧
      a.graph.node? 6 = some node ∧ node.op = .call Assembler.selfSite ∧
      a.registry.get Assembler.selfSite.descriptor = .ok callee ∧ callee.flags.needsFrameState = true ∧
      Assembler.selfSite.frameState = false := by
  obtain ⟨a, node, followed, calm, read, op, known⟩ := Assembler.self_calling_read
  exact ⟨a, node, _, (Assembler.follow_assembled followed).linked, calm, read, op, known, rfl, rfl⟩

theorem self_call_fits :
    ∃ a node callee, Assembler.selfCalling = some a ∧ a.journal.violations = #[] ∧ a.graph.node? 6 = some node ∧
      a.registry.get 0 = .ok callee ∧ callee.inputCount = 5 ∧ node.inputs.length = 7 := by
  obtain ⟨a, node, followed, calm, read, op, _⟩ := Assembler.self_calling_read
  obtain ⟨callee, known, values, _, _, _, inputs⟩ := call_nodes_fit_descriptors _ _ a
    (Assembler.follow_assembled followed).linked calm 6 node Assembler.selfSite read (.inl op)
  have count : callee.inputCount = 5 := values.symm
  exact ⟨a, node, callee, followed, calm, read, known, count, inputs.trans (by rw [count])⟩

end SeaOfNodes
