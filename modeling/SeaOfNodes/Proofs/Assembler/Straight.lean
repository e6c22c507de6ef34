import SeaOfNodes.Assembler.Command
import SeaOfNodes.Proofs.Runs

/-! What can be said of the steps that commands are made of can be said of every command. -/

namespace SeaOfNodes

open List

def Operator.callSite? : Operator → Option CallSite
  | .call site | .tailCall site => some site
  | _ => none

def Command.given : Command → List NodeId
  | .machine _ inputs => inputs
  | .int32Add left right | .wordAdd left right | .wordSub left right => [left, right]
  | .wordShiftLeft value amount | .wordShiftRight value amount => [value, amount]
  | .extend value | .truncate value | .tagSmall value | .untagSmall value => [value]
  | .load _ base offset | .atomicLoad _ base offset => [base, offset]
  | .store _ _ base offset value | .atomicStore _ base offset value => [base, offset, value]
  | .storeRoot _ value | .retain value | .projection _ value => [value]
  | .ret values => values
  | .popAndReturn pop value => [pop, value]
  | .newVariable _ _ value => value.toList
  | .bindVariable _ value => [value]
  | .gotoIf condition _ | .gotoIfNot condition _ | .branch condition _ _ => [condition]
  | .switch index _ _ => [index]
  | .gotoIfException site _ _ => [site]
  | .returnIf condition value => [condition, value]
  | .call _ target context arguments | .callAll _ target context arguments | .tailCall _ target context arguments =>
    target :: (arguments ++ context.toList)
  | .callBuiltin _ context arguments => arguments ++ context.toList
  | .callRuntime _ context arguments | .tailCallRuntime _ context arguments => context :: arguments
  | .callNative _ _ arguments => arguments.map (·.2)
  | .abort context _ => [context]
  | .constant _ | .smallConstant _ | .loadRoot _ | .debugBreak | .unreachable | .comment _ | .breakOn _ | .readVariable _
  | .releaseVariable _ | .newLabel .. | .bind _ | .goto _ | .registerHooks .. | .unregisterHooks => []

def Outcome.answers : Outcome → List NodeId
  | .node id => [id]
  | .nodes ids => ids
  | .nothing | .variableId _ | .labelId _ => []

def Command.branches : Command → Bool
  | .newVariable .. | .bindVariable .. | .releaseVariable _ | .newLabel .. | .bind _ | .goto _ | .gotoIf .. | .gotoIfNot ..
  | .branch .. | .switch .. | .gotoIfException .. | .returnIf .. => true
  | _ => false

namespace Assembly

variable {α β : Type} {value : NodeId}

-- Work that writes to the log and nothing else.
def Notes {α : Type} (work : Build α) : Prop :=
  ∀ s result t, work s = .ok result t → t.graph = s.graph ∧ t.registry = s.registry ∧ t.journal.mode = s.journal.mode ∧
    t.journal.violations = s.journal.violations

theorem notes_bind {first : Build α} {next : α → Build β} (begins : Notes first) (goes : ∀ value, Notes (next value)) :
    Notes (first >>= next) := by
  intro s result t run
  obtain ⟨value, middle, here, there⟩ := runs_bind.mp run
  obtain ⟨graph, registry, mode, violations⟩ := begins s value middle here
  obtain ⟨graph', registry', mode', violations'⟩ := goes value middle result t there
  exact ⟨graph'.trans graph, registry'.trans registry, mode'.trans mode, violations'.trans violations⟩

theorem notes_pure {value : α} : Notes (pure value) := by
  intro s result t run
  cases run
  exact ⟨rfl, rfl, rfl, rfl⟩

theorem notes_stages {first : ExceptT CompileError Build α} {next : α → ExceptT CompileError Build β} (begins : Notes first.run)
    (goes : ∀ value, Notes (next value).run) : Notes (first >>= next).run := by
  refine notes_bind begins fun answer => ?_
  cases answer with
  | ok value => exact goes value
  | error error => exact notes_pure

theorem notes_stage {ε : Type} {wrap : ε → CompileError} {outcome : Except (Failure ε) α} :
    Notes (Build.stage wrap outcome).run := by
  cases outcome with
  | ok value => exact notes_pure
  | error failure =>
    cases failure with
    | rejected error => exact notes_pure
    | fault fault => exact fun _ _ _ impossible => by cases impossible

theorem notes_note {entry : LogEntry} : Notes (Build.note entry) := by
  intro s result t run
  obtain rfl := Build.runs_note.mp run
  exact ⟨rfl, rfl, rfl, rfl⟩

theorem notes_compile {descriptor : CallDescriptor} {name : String} {flags : CodeFlags} {limit : Nat} :
    Notes (Build.compile descriptor name flags limit).run := by
  refine notes_stages ?_ fun work => ?_
  · intro s result t run
    cases run
    exact ⟨rfl, rfl, rfl, rfl⟩
  · refine notes_stages notes_stage fun _ => notes_stages notes_stage fun schedule => ?_
    refine notes_stages ?_ fun _ => notes_stage
    exact notes_bind notes_note fun _ => notes_pure

-- A judgement on work that is given some nodes and answers with others, closed under the steps of straight-line code; under the
-- emission of calls only if `calls`.
structure Discipline (calls : Prop) (judges : ∀ {α : Type}, List NodeId → Assembly α → (α → List NodeId) → Prop) : Prop where
  pure : ∀ {α : Type} (inputs : List NodeId) (value : α) (outputs : α → List NodeId), (∀ id ∈ outputs value, id ∈ inputs) →
    judges inputs (pure value) outputs
  bind : ∀ {α β : Type} (inputs : List NodeId) (first : Assembly α) (next : α → Assembly β) (between : α → List NodeId)
    (outputs : β → List NodeId), judges inputs first between →
    (∀ value, judges (between value ++ inputs) (next value) outputs) → judges inputs (first >>= next) outputs
  map : ∀ {α β : Type} (inputs : List NodeId) (work : Assembly α) (change : α → β) (outputs : β → List NodeId),
    judges inputs work (fun value => outputs (change value)) → judges inputs (change <$> work) outputs
  more : ∀ {α : Type} (inputs more : List NodeId) (work : Assembly α) (outputs : α → List NodeId), (∀ id ∈ inputs, id ∈ more) →
    judges inputs work outputs → judges more work outputs
  forget : ∀ {α : Type} (inputs : List NodeId) (work : Assembly α) (outputs fewer : α → List NodeId),
    (∀ value, ∀ id ∈ fewer value, id ∈ outputs value) → judges inputs work outputs → judges inputs work fewer
  get : ∀ {α : Type} (inputs : List NodeId) (next : Assembler → Assembly α) (outputs : α → List NodeId),
    (∀ a, judges inputs (next a) outputs) → judges inputs (get >>= next) outputs
  ofExcept : ∀ {α : Type} (inputs : List NodeId) (outcome : Except Fault α), judges inputs (ofExcept outcome) fun _ => []
  report : ∀ inputs violation, judges inputs (report violation) fun _ => []
  notes : ∀ {α : Type} (inputs : List NodeId) (work : Build α), Notes work → judges inputs (ofBuild work) fun _ => []
  intern : ∀ inputs descriptor, judges inputs (ofBuild (Build.intern descriptor)) fun _ => []
  hooks : ∀ inputs (prologue epilogue : Assembler → Option Hook),
    judges inputs (modify fun a => { a with prologue := prologue a, epilogue := epilogue a }) fun _ => []
  breakOn : ∀ inputs id, judges inputs (modify fun a => { a with breakOn := some id }) fun _ => []
  generated : ∀ inputs, judges inputs (modify fun a => { a with generated := true }) fun _ => []
  markBreakpoint : ∀ inputs id, judges inputs (markBreakpoint id) fun _ => []
  setType : ∀ inputs id type, judges inputs (ofBuild (Build.change fun graph => graph.setType id type)) fun _ => []
  addComment : ∀ inputs text, judges inputs (ofBuild (Build.edit fun graph => .ok (graph.addComment text))) fun _ => []
  constant : ∀ inputs value, judges inputs (constant value) fun id => [id]
  value : ∀ op inputs, op.isControl = false → op.isPhi = false → op.layout.controls = 0 →
    judges inputs (addNode op inputs) fun id => [id]
  memory : ∀ op values operation, op.isControl = false → op.isPhi = false → op.layout.controls ≤ 1 →
    judges values (addEffectNode op values operation) fun id => [id]
  emit : ∀ site values operation, calls → judges values (addEffectNode (.call site) values operation) fun id => [id]
  terminator : ∀ op values operation, op.isTerminator = true → op.callSite? = none ∨ calls →
    judges values (addTerminator op values operation) fun id => [id]

section

variable {inputs : List NodeId} {calls : Prop} {judges : ∀ {α : Type}, List NodeId → Assembly α → (α → List NodeId) → Prop}
  (rules : Discipline calls judges)

include rules

theorem Discipline.andThen {first : Assembly α} {next : Assembly β} {outputs : β → List NodeId}
    (begins : judges inputs first fun _ => []) (goes : judges inputs next outputs) :
    judges inputs (first >>= fun _ => next) outputs :=
  rules.bind inputs first (fun _ => next) (fun _ => []) outputs begins fun _ => goes

theorem Discipline.withConstant {value : Constant} {next : NodeId → Assembly α} {outputs : α → List NodeId}
    (goes : ∀ id, judges (id :: inputs) (next id) outputs) : judges inputs (Assembly.constant value >>= next) outputs :=
  rules.bind inputs _ next (fun id => [id]) outputs (rules.constant inputs value) goes

theorem Discipline.mapM {items : List β} {visit : β → Assembly NodeId} (each : ∀ item, judges inputs (visit item) fun id => [id]) :
    judges inputs (items.mapM visit) fun ids => ids := by
  induction items with
  | nil => exact rules.pure _ [] _ (by simp)
  | cons item rest ih =>
    rw [mapM_cons]
    refine rules.bind _ _ _ (fun id => [id]) _ (each item) fun id => ?_
    refine rules.bind _ _ _ (fun ids => ids) _ (rules.more _ _ _ _ (by simp +contextual) ih) fun ids => ?_
    refine rules.pure _ (id :: ids) _ fun other member => ?_
    rcases mem_cons.mp member with first | later
    · exact mem_append_right ids (first ▸ mem_cons_self)
    · exact mem_append_left _ later

section

variable {left right : NodeId} {index : RootIndex}

theorem straight_machine {op : MachineOp} (inputs : List NodeId) : judges inputs (machine op inputs) fun id => [id] :=
  rules.andThen (rules.ofExcept inputs _) (rules.value (.machine op) inputs rfl rfl rfl)

-- Sums, differences and shifts answer with a constant where the operands are known, with an operand where the other one is
-- neutral, and else with a node.
theorem straight_binary : judges [left, right] (int32Add left right) (fun id => [id]) ∧
    judges [left, right] (wordAdd left right) (fun id => [id]) ∧ judges [left, right] (wordSub left right) (fun id => [id]) ∧
    judges [left, right] (wordShiftLeft left right) (fun id => [id]) ∧
    judges [left, right] (wordShiftRight left right) (fun id => [id]) := by
  refine ⟨?_, ?_, ?_, ?_, ?_⟩
  all_goals
    refine rules.get _ _ _ fun _ => rules.get _ _ _ fun _ => ?_
    split
    · exact rules.constant _ _
    split
    · exact rules.pure _ left _ (by simp)
  iterate 2
    · split
      · exact rules.pure _ right _ (by simp)
      · exact straight_machine rules _
  all_goals exact straight_machine rules _

theorem straight_extend : judges [value] (extend value) fun id => [id] := by
  refine rules.get _ _ _ fun _ => ?_
  split
  · exact rules.constant _ _
  · exact straight_machine rules _

theorem straight_truncate : judges [value] (truncate value) fun id => [id] := by
  refine rules.get _ _ _ fun _ => ?_
  split
  · exact rules.constant _ _
  · exact straight_machine rules _

theorem straight_tag_small : judges [value] (tagSmall value) fun id => [id] := by
  refine rules.withConstant fun amount => ?_
  refine rules.bind _ _ _ (fun id => [id]) _ ?_ fun word => ?_
  · exact rules.more _ _ _ _ (by simp) (straight_binary rules).2.2.2.1
  · exact rules.more _ _ _ _ (by simp) (straight_machine rules [word])

theorem straight_untag_small : judges [value] (untagSmall value) fun id => [id] := by
  refine rules.bind _ _ _ (fun id => [id]) _ (straight_machine rules _) fun word => ?_
  refine rules.withConstant fun amount => ?_
  exact rules.more _ _ _ _ (by simp) (straight_binary rules).2.2.2.2

theorem straight_small_constant {value : Int32} : judges inputs (smallConstant value) fun id => [id] := by
  refine rules.withConstant fun word => ?_
  refine rules.bind _ _ _ (fun id => [id]) _ ?_ fun id => ?_
  · exact rules.more [word] _ _ _ (by simp) (rules.value _ _ rfl rfl rfl)
  · exact rules.andThen (rules.setType _ id _) (rules.pure _ id _ (by simp))

theorem straight_load_root : judges inputs (loadRoot index) fun id => [id] := by
  rw [loadRoot]
  split
  · exact rules.constant _ _
  · refine rules.withConstant fun roots => ?_
    refine rules.withConstant fun offset => ?_
    exact rules.more [roots, offset] _ _ _ (by simp) (rules.memory _ _ _ rfl rfl (le_refl 1))

theorem straight_store_root : judges [value] (storeRoot index value) fun id => [id] := by
  refine rules.withConstant fun roots => ?_
  refine rules.withConstant fun offset => ?_
  exact rules.more [roots, offset, value] _ _ _ (by simp) (rules.memory _ _ _ rfl rfl (le_refl 1))

end

section

variable {context : Option NodeId} {arguments : List NodeId}

theorem straight_silently {work : Assembly NodeId} (keeps : judges inputs work fun id => [id]) :
    judges inputs (work >>= fun _ => pure ()) fun _ => [] :=
  rules.andThen (rules.forget _ _ _ _ (by simp) keeps) (rules.pure _ () _ (by simp))

theorem straight_ret (pop : Option NodeId) (values : List NodeId) :
    judges (pop.toList ++ values) (ret pop values) fun _ => [] := by
  have closes (pop : NodeId) : judges (pop :: values)
      (addTerminator (.control (.ret (UInt32.ofNat values.length))) (pop :: values) "return" >>= fun _ => pure ())
      fun _ => [] := straight_silently rules (rules.terminator _ _ _ rfl (.inl rfl))
  cases pop with
  | some pop => exact closes pop
  | none =>
    refine rules.withConstant fun pop => ?_
    exact closes pop

theorem straight_debug_break (inputs : List NodeId) : judges inputs debugBreak fun _ => [] :=
  rules.more [] _ _ _ (by simp) (straight_silently rules (rules.memory _ _ _ rfl rfl (le_refl 1)))

theorem straight_unreachable : judges inputs Assembly.unreachable fun _ => [] := by
  refine rules.andThen (straight_debug_break rules inputs) ?_
  refine rules.more [] _ _ _ (by simp) ?_
  refine rules.andThen ?_ (straight_silently rules (rules.terminator _ _ _ rfl (.inl rfl)))
  exact rules.forget _ _ _ _ (by simp) (rules.memory _ _ _ rfl rfl (le_refl 1))

theorem straight_comment (text : String) : judges inputs (comment text) fun _ => [] := by
  refine rules.get _ _ _ fun a => ?_
  split
  · refine rules.bind _ _ _ (fun _ => []) _ (rules.addComment _ _) fun id => ?_
    exact rules.more [] _ _ _ (by simp) (straight_silently rules (rules.memory _ _ _ rfl rfl (le_refl 1)))
  · exact rules.pure _ () _ (by simp)

theorem straight_break_on {id : NodeId} : judges inputs (Assembly.breakOn id) fun _ => [] := by
  refine rules.andThen (rules.breakOn _ id) (rules.get _ _ _ fun a => ?_)
  split
  · exact rules.markBreakpoint _ _
  · exact rules.pure _ () _ (by simp)

theorem straight_register_hooks {prologue epilogue : Hook} : judges inputs (registerHooks prologue epilogue) fun _ => [] := by
  refine rules.get _ _ _ fun a => ?_
  have installs := rules.hooks inputs (fun _ => some prologue) (fun _ => some epilogue)
  split
  · exact rules.andThen (rules.report _ _) installs
  · exact installs

theorem straight_unregister_hooks : judges inputs unregisterHooks fun _ => [] :=
  rules.hooks inputs (fun _ => none) (fun _ => none)

theorem straight_run_hook {hook : Hook} : judges inputs (runHook hook) fun _ => [] := by
  cases hook with
  | nothing => exact rules.pure _ () _ (by simp)
  | debugBreak => exact straight_debug_break rules _
  | comment text => exact straight_comment rules text
  | unregister => exact straight_unregister_hooks rules
  | register => exact straight_register_hooks rules

theorem straight_run_prologue (inputs : List NodeId) : judges inputs runPrologue fun _ => [] := by
  refine rules.get _ _ _ fun a => ?_
  split
  · exact rules.andThen (rules.hooks _ (fun _ => none) Assembler.epilogue) <|
      rules.andThen (straight_run_hook rules) (rules.hooks _ (fun a => a.prologue.or _) Assembler.epilogue)
  · exact rules.pure _ () _ (by simp)

theorem straight_run_epilogue (inputs : List NodeId) : judges inputs runEpilogue fun _ => [] := by
  refine rules.get _ _ _ fun a => ?_
  split
  · exact rules.andThen (rules.hooks _ Assembler.prologue (fun _ => none)) <|
      rules.andThen (straight_run_hook rules) (rules.hooks _ Assembler.prologue (fun a => a.epilogue.or _))
  · exact rules.pure _ () _ (by simp)

theorem straight_check_call (inputs : List NodeId) {callee : CallDescriptor} {arguments : Nat} {tail : Bool} :
    judges inputs (checkCall callee arguments tail) fun _ => [] := by
  refine rules.bind _ _ _ (fun _ => []) _ (rules.get _ _ _ fun a => rules.pure _ _ _ (by simp)) fun on => ?_
  have last : judges inputs (if tail && !callee.flags.supportsTailCalls then report (.tailCallUnsupported callee.name)
      else pure ()) fun _ => [] := by
    split
    · exact rules.report _ _
    · exact rules.pure _ () _ (by simp)
  split
  · dsimp only
    split
    · exact rules.andThen (rules.report _ _) last
    · exact last
  · exact rules.pure _ () _ (by simp)

theorem straight_call (may : calls) (descriptor : DescriptorId) (target : NodeId) (context : Option NodeId)
    (arguments : List NodeId) (tail : Bool) :
    judges (target :: (arguments ++ context.toList)) (call descriptor target context arguments tail) fun id => [id] := by
  refine rules.get _ _ _ fun a => ?_
  refine rules.bind _ _ _ (fun _ => []) _ (rules.ofExcept _ _) fun callee => ?_
  refine rules.andThen (straight_check_call rules _) ?_
  split
  · exact rules.terminator _ _ _ rfl (.inr may)
  · refine rules.andThen (straight_run_prologue rules _) ?_
    refine rules.bind _ _ _ (fun id => [id]) _ (rules.emit _ _ _ may) fun id => ?_
    exact rules.andThen (straight_run_epilogue rules _) (rules.pure _ id _ (by simp))

variable (emits : ∀ descriptor target context arguments tail,
  judges (target :: (arguments ++ context.toList)) (call descriptor target context arguments tail) fun id => [id])

include emits

theorem straight_call_all {descriptor : DescriptorId} {target : NodeId} : judges (target :: (arguments ++ context.toList))
      (callAll descriptor target context arguments) fun ids => ids := by
  refine rules.bind _ _ _ (fun id => [id]) _ (emits _ _ _ _ _) fun id => ?_
  refine rules.get _ _ _ fun a => ?_
  refine rules.bind _ _ _ (fun _ => []) _ (rules.ofExcept _ _) fun callee => ?_
  refine rules.mapM fun index => ?_
  exact rules.more [id] _ _ _ (by simp) (rules.value _ _ rfl rfl rfl)

theorem straight_call_builtin {builtin : Builtin} :
    judges (arguments ++ context.toList) (callBuiltin builtin context arguments) fun id => [id] := by
  refine rules.bind _ _ _ (fun _ => []) _ (rules.ofExcept _ _) fun callee => ?_
  refine rules.bind _ _ _ (fun _ => []) _ (rules.intern _ _) fun descriptor => ?_
  refine rules.withConstant fun target => ?_
  exact emits _ _ _ _ _

theorem straight_call_runtime (function : RuntimeFunction) (context : NodeId) (arguments : List NodeId) (tail : Bool) :
    judges (context :: arguments) (callRuntime function context arguments tail) fun id => [id] := by
  refine rules.bind _ _ _ (fun _ => []) _ (rules.intern _ _) fun descriptor => ?_
  refine rules.withConstant fun entry => ?_
  refine rules.bind _ _ _ (fun _ => []) _ (rules.get _ _ _ fun a => rules.pure _ _ _ (by simp)) fun on => ?_
  have calls : judges (entry :: context :: arguments) (do
      let routine ← constant (.external (.runtimeFunction function))
      let count ← constant (.int32 (Int32.ofNat arguments.length))
      call descriptor entry (some context) (arguments ++ [routine, count]) tail) fun id => [id] := by
    refine rules.withConstant fun routine => ?_
    refine rules.withConstant fun count => ?_
    refine rules.more _ _ _ _ ?_ (emits _ _ _ _ _)
    intro id member
    simp only [mem_cons, mem_append, Option.toList_some, not_mem_nil, or_false] at member ⊢
    tauto
  dsimp only
  split
  · split
    · split
      · exact rules.andThen (rules.report _ _) calls
      · exact calls
    · exact calls
  · exact calls

theorem straight_call_native {function : ExternalReference} {result : Option MachineType}
    {arguments : List (MachineType × NodeId)} :
    judges (arguments.map (·.2)) (callNative function result arguments) fun id => [id] := by
  refine rules.bind _ _ _ (fun _ => []) _ (rules.intern _ _) fun descriptor => ?_
  refine rules.withConstant fun target => ?_
  exact rules.more _ _ _ _ (by simp) (emits _ _ none _ _)

theorem straight_abort {context : NodeId} {reason : Int32} : judges [context] (abort context reason) fun _ => [] := by
  refine rules.bind _ _ _ (fun id => [id]) _ (straight_small_constant rules) fun reason => ?_
  refine rules.andThen ?_ (straight_unreachable rules)
  refine rules.forget _ _ (fun id => [id]) _ (by simp) ?_
  exact rules.more _ _ _ _ (by simp) (straight_call_runtime rules emits .abort context [reason] false)

end

theorem straight_generate (inputs : List NodeId) (name : String) (flags : CodeFlags) (limit : Nat) :
    judges inputs (generate name flags limit) fun _ => [] := by
  refine rules.get _ _ _ fun a => ?_
  have compiles : judges inputs (do
      modify fun a => { a with generated := true }
      let descriptor ← ofExcept (← get).callDescriptor
      ofBuild do
        Build.note (.generating name (← get).graph.size)
        (Build.compile descriptor name flags limit).run) fun _ => [] := by
    refine rules.andThen (rules.generated _) (rules.get _ _ _ fun b => ?_)
    refine rules.bind _ _ _ (fun _ => []) _ (rules.ofExcept _ _) fun descriptor => ?_
    refine rules.notes _ _ (notes_bind ?_ fun work => notes_bind notes_note fun _ => notes_compile)
    intro s result t run
    cases run
    exact ⟨rfl, rfl, rfl, rfl⟩
  dsimp only
  split
  · exact rules.andThen (rules.report _ _) compiles
  · exact compiles

section

theorem answers_node (inputs : List NodeId) (work : Assembly NodeId) (goes : judges inputs work fun id => [id]) :
    judges inputs (Outcome.node <$> work) Outcome.answers :=
  rules.map inputs work _ _ goes

theorem answers_nothing (inputs : List NodeId) (work : Assembly α) (outputs : α → List NodeId) (goes : judges inputs work outputs) :
    judges inputs (work >>= fun _ => pure Outcome.nothing) Outcome.answers :=
  rules.andThen (rules.forget _ _ _ _ (by simp) goes) (rules.pure _ _ _ (by simp [Outcome.answers]))

variable (emits : ∀ descriptor target context arguments tail,
  judges (target :: (arguments ++ context.toList)) (call descriptor target context arguments tail) fun id => [id])

include emits

theorem straight_command {command : Command} (straight : command.branches = false)
    (reads : ∀ var, command = .readVariable var → judges [] command.run Outcome.answers) :
    judges command.given command.run Outcome.answers := by
  have node (inputs : List NodeId) (work : Assembly NodeId) := answers_node rules inputs work
  have nothing {α : Type} (inputs : List NodeId) (work : Assembly α) := answers_nothing rules inputs work
  cases command with
  | constant value => exact node _ _ (rules.constant _ _)
  | smallConstant value => exact node _ _ (straight_small_constant rules)
  | machine op inputs => exact node _ _ (straight_machine rules _)
  | int32Add left right => exact node _ _ (straight_binary rules).1
  | wordAdd left right => exact node _ _ (straight_binary rules).2.1
  | wordSub left right => exact node _ _ (straight_binary rules).2.2.1
  | wordShiftLeft value amount => exact node _ _ (straight_binary rules).2.2.2.1
  | wordShiftRight value amount => exact node _ _ (straight_binary rules).2.2.2.2
  | extend value => exact node _ _ (straight_extend rules)
  | truncate value => exact node _ _ (straight_truncate rules)
  | tagSmall value => exact node _ _ (straight_tag_small rules)
  | untagSmall value => exact node _ _ (straight_untag_small rules)
  | load type base offset => exact node _ _ (rules.memory _ _ _ rfl rfl (le_refl 1))
  | atomicLoad type base offset => exact node _ _ (rules.memory _ _ _ rfl rfl (le_refl 1))
  | loadRoot index => exact node _ _ (straight_load_root rules)
  | store representation barrier base offset value => exact node _ _ (rules.memory _ _ _ rfl rfl (le_refl 1))
  | atomicStore representation base offset value => exact node _ _ (rules.memory _ _ _ rfl rfl (le_refl 1))
  | storeRoot index value => exact node _ _ (straight_store_root rules)
  | retain value => exact node _ _ (rules.memory _ _ _ rfl rfl (Nat.zero_le 1))
  | projection index value => exact node _ _ (rules.value _ _ rfl rfl rfl)
  | ret values => exact rules.andThen (rules.ofExcept _ _) (nothing _ _ _ (straight_ret rules none values))
  | popAndReturn pop value => exact nothing _ _ _ (straight_ret rules (some pop) [value])
  | debugBreak => exact nothing _ _ _ (straight_debug_break rules _)
  | unreachable => exact nothing _ _ _ (straight_unreachable rules)
  | comment text => exact nothing _ _ _ (straight_comment rules _)
  | breakOn id => exact nothing _ _ _ (straight_break_on rules)
  | readVariable var => exact reads var rfl
  | call descriptor target context arguments => exact node _ _ (emits _ _ _ _ _)
  | callAll descriptor target context arguments => exact rules.map _ _ _ _ (straight_call_all rules emits)
  | callBuiltin builtin context arguments => exact node _ _ (straight_call_builtin rules emits)
  | callRuntime function context arguments => exact node _ _ (straight_call_runtime rules emits _ _ _ _)
  | callNative function result arguments => exact node _ _ (straight_call_native rules emits)
  | tailCall descriptor target context arguments => exact nothing _ _ _ (emits _ _ _ _ _)
  | tailCallRuntime function context arguments => exact nothing _ _ _ (straight_call_runtime rules emits _ _ _ _)
  | abort context reason => exact nothing _ _ _ (straight_abort rules emits)
  | registerHooks prologue epilogue => exact nothing _ _ _ (straight_register_hooks rules)
  | unregisterHooks => exact nothing _ _ _ (straight_unregister_hooks rules)
  | _ => cases straight

end

end

structure Branching (judges : ∀ {α : Type}, List NodeId → Assembly α → (α → List NodeId) → Prop) : Prop where
  newVariable : ∀ inputs name representation, judges inputs (newVariable name representation) fun _ => []
  setVariable : ∀ id value, judges value.toList (setVariable id value) fun _ => []
  releaseVariable : ∀ inputs id, judges inputs (releaseVariable id) fun _ => []
  newLabel : ∀ inputs kind declared, judges inputs (newLabel kind declared) fun _ => []
  bind : ∀ inputs id, judges inputs (Assembly.bind id) fun _ => []
  goto : ∀ inputs id, judges inputs (goto id) fun _ => []
  branch : ∀ condition ifTrue ifFalse, judges [condition] (branch condition ifTrue ifFalse) fun _ => []
  switch : ∀ index default cases, judges [index] (switch index default cases) fun _ => []

section

variable {condition : NodeId} {id : LabelId} {calls : Prop}
  {judges : ∀ {α : Type}, List NodeId → Assembly α → (α → List NodeId) → Prop} (rules : Discipline calls judges)
  (branching : Branching judges)

include rules branching

theorem branching_goto_if : judges [condition] (gotoIf condition id) fun _ => [] :=
  rules.bind _ _ _ (fun _ => []) _ (branching.newLabel _ _ _) fun next =>
    rules.andThen (branching.branch condition id next) (branching.bind _ next)

theorem branching_goto_if_not : judges [condition] (gotoIfNot condition id) fun _ => [] :=
  rules.bind _ _ _ (fun _ => []) _ (branching.newLabel _ _ _) fun next =>
    rules.andThen (branching.branch condition next id) (branching.bind _ next)

theorem branching_return_if : judges [condition, value] (returnIf condition value) fun _ => [] := by
  refine rules.bind _ _ _ (fun _ => []) _ (branching.newLabel _ _ _) fun returning => ?_
  refine rules.bind _ _ _ (fun _ => []) _ (branching.newLabel _ _ _) fun next => ?_
  refine rules.andThen ?_ ?_
  · exact rules.more _ _ _ _ (by simp) (branching.branch condition returning next)
  refine rules.andThen (branching.bind _ returning) ?_
  refine rules.andThen ?_ (branching.bind _ next)
  exact rules.more _ _ _ _ (by simp) (straight_ret rules none [value])

theorem judged_command (emits : ∀ descriptor target context arguments tail,
      judges (target :: (arguments ++ context.toList)) (call descriptor target context arguments tail) fun id => [id])
    (command : Command) (reads : ∀ var, command = .readVariable var → judges [] command.run Outcome.answers)
    (throws : ∀ site handler exception, command = .gotoIfException site handler exception →
      judges [site] command.run Outcome.answers) : judges command.given command.run Outcome.answers := by
  have nothing {α : Type} (inputs : List NodeId) (work : Assembly α) := answers_nothing rules inputs work
  cases straight : command.branches with
  | false => exact straight_command rules emits straight reads
  | true =>
    cases command with
    | newVariable name representation value =>
      refine rules.bind _ _ _ (fun _ => []) _ (branching.newVariable _ _ _) fun id => ?_
      have answers : judges value.toList (pure (Outcome.variableId id)) Outcome.answers :=
        rules.pure _ _ _ (by simp [Outcome.answers])
      split
      · exact rules.andThen (branching.setVariable id value) answers
      · exact answers
    | bindVariable var value => exact nothing _ _ _ (branching.setVariable var (some value))
    | releaseVariable var => exact nothing _ _ _ (branching.releaseVariable _ _)
    | newLabel kind declared => exact rules.map _ _ _ _ (branching.newLabel _ _ _)
    | bind label => exact nothing _ _ _ (branching.bind _ _)
    | goto label => exact nothing _ _ _ (branching.goto _ _)
    | gotoIf condition label => exact nothing _ _ _ (branching_goto_if rules branching)
    | gotoIfNot condition label => exact nothing _ _ _ (branching_goto_if_not rules branching)
    | branch condition ifTrue ifFalse => exact nothing _ _ _ (branching.branch _ _ _)
    | switch index default cases => exact nothing _ _ _ (branching.switch _ _ _)
    | gotoIfException site handler exception => exact throws site handler exception rfl
    | returnIf condition value => exact nothing _ _ _ (branching_return_if rules branching)
    | _ => cases straight

end

end Assembly

end SeaOfNodes
