import SeaOfNodes.Proofs.Assembler.Session
import SeaOfNodes.Proofs.Call.Interning

/-! Straight-line commands as sequences of small changes. -/

namespace SeaOfNodes.Assembly

variable {op : Operator}

open Assembler

structure Strokes (calls : Prop) (holds : Assembler → Assembler → Prop) : Prop where
  refl : ∀ a, holds a a
  trans : ∀ a b c, holds a b → holds b c → holds a c
  push : ∀ a op inputs, op.isMerge = false → op.isPhi = false → op.callSite? = none ∨ calls →
    inputs.length = op.layout.total → holds a { a with graph := (a.graph.push { op := op, inputs := inputs }).2 }
  constant : ∀ a value, holds a { a with graph := (a.graph.constant value).2 }
  restyle : ∀ a id (change : Node → Node), (∀ node, (change node).op = node.op) → (∀ node, (change node).inputs = node.inputs) →
    (∀ node, (change node).dead = node.dead) → holds a { a with graph := a.graph.modifyNode id change }
  comment : ∀ a text, holds a { a with graph := (a.graph.addComment text).2 }
  exit : ∀ a terminator next, a.graph.mergeToEnd terminator = .ok next → holds a { a with graph := next }
  report : ∀ a violation result b, report violation a = .ok result b → holds a b
  annotate : ∀ a (work : Workspace), work.graph = a.graph → a.registry.Retains work.registry →
    work.journal.mode = a.journal.mode → work.journal.violations = a.journal.violations →
    holds a { a with toWorkspace := work }
  current : ∀ a current, holds a { a with current := current }
  hooks : ∀ a prologue epilogue, holds a { a with prologue := prologue, epilogue := epilogue }
  breakOn : ∀ a breakOn, holds a { a with breakOn := breakOn }
  generated : ∀ a generated, holds a { a with generated := generated }

theorem Strokes.carries {calls : Prop} {holds : Assembler → Assembler → Prop} (strokes : Strokes calls holds)
    (good : Assembler → Prop) (later : ∀ a b, holds a b → good a → good b) : Strokes calls fun a b => good a → good b where
  refl _ fine := fine
  trans _ _ _ first second fine := second (first fine)
  push a op inputs merge phi call counted := later _ _ (strokes.push a op inputs merge phi call counted)
  constant a value := later _ _ (strokes.constant a value)
  restyle a id change op inputs dead := later _ _ (strokes.restyle a id change op inputs dead)
  comment a text := later _ _ (strokes.comment a text)
  exit a terminator next made := later _ _ (strokes.exit a terminator next made)
  report a violation result b run := later _ _ (strokes.report a violation result b run)
  annotate a work graph registry mode violations := later _ _ (strokes.annotate a work graph registry mode violations)
  current a current := later _ _ (strokes.current a current)
  hooks a prologue epilogue := later _ _ (strokes.hooks a prologue epilogue)
  breakOn a breakOn := later _ _ (strokes.breakOn a breakOn)
  generated a generated := later _ _ (strokes.generated a generated)

def Straight {α : Type} (holds : Assembler → Assembler → Prop) (work : Assembly α) : Prop :=
  ∀ a result b, work a = .ok result b → holds a b

variable {α β : Type} {calls : Prop} {holds : Assembler → Assembler → Prop} (strokes : Strokes calls holds)

include strokes

protected theorem Strokes.pure (value : α) : Straight holds (pure value) := by
  intro a result b run
  cases run
  exact strokes.refl a

protected theorem Strokes.bind {first : Assembly α} {next : α → Assembly β} (begins : Straight holds first)
    (goes : ∀ value, Straight holds (next value)) : Straight holds (first >>= next) := by
  intro a result b run
  obtain ⟨value, middle, here, there⟩ := runs_bind.mp run
  exact strokes.trans a middle b (begins a value middle here) (goes value middle result b there)

protected theorem Strokes.seq {first : Assembly α} {next : Assembly β} (begins : Straight holds first) (goes : Straight holds next) :
    Straight holds (first >>= fun _ => next) :=
  strokes.bind begins fun _ => goes

protected theorem Strokes.get {next : Assembler → Assembly β} (goes : ∀ a, Straight holds (next a)) : Straight holds (get >>= next) := by
  refine strokes.bind ?_ goes
  intro a result b run
  obtain ⟨_, rfl⟩ := runs_get.mp run
  exact strokes.refl a

protected theorem Strokes.of_except (outcome : Except Fault α) : Straight holds (ofExcept outcome) := by
  intro a result b run
  obtain ⟨_, rfl⟩ := runs_of_except.mp run
  exact strokes.refl a

omit strokes in
theorem straight_map (work : Assembly α) (change : α → β) (straight : Straight holds work) : Straight holds (change <$> work) := by
  intro a result b run
  obtain ⟨value, here, _⟩ := runs_map.mp run
  exact straight a value b here

omit strokes in
theorem straight_modify {change : Assembler → Assembler} (each : ∀ a, holds a (change a)) :
    Straight holds (modify change : Assembly Unit) := by
  intro a result b run
  cases run
  exact each a

theorem straight_report (violation : Violation) : Straight holds (report violation) :=
  fun a result b run => strokes.report a violation result b run

omit strokes in
theorem straight_edit {change : Graph → Except Fault (α × Graph)}
    (each : ∀ a result next, change a.graph = .ok (result, next) → holds a { a with graph := next }) :
    Straight holds (ofBuild (Build.edit change)) := by
  intro a result b run
  obtain ⟨t, done, rfl⟩ := runs_of_build.mp run
  obtain ⟨graph, made, rfl⟩ := Build.runs_edit.mp done
  exact each a result graph made

theorem straight_notes (work : Build α) (notes : Notes work) : Straight holds (ofBuild work) := by
  intro a result b run
  obtain ⟨t, done, rfl⟩ := runs_of_build.mp run
  obtain ⟨graph, registry, mode, violations⟩ := notes _ _ _ done
  exact strokes.annotate a t graph (registry ▸ a.registry.retains_refl) mode violations

theorem straight_mark_breakpoint (id : NodeId) : Straight holds (markBreakpoint id) := by
  intro a result b run
  rcases mark_breakpoint_runs run with rfl | ⟨entry, rfl⟩
  · exact strokes.refl b
  · exact strokes.trans _ _ _ (strokes.restyle a id (fun node => { node with breakpoint := true }) (fun _ => rfl) (fun _ => rfl)
      fun _ => rfl) (strokes.annotate _ ⟨_, a.registry, a.journal.note entry⟩ rfl a.registry.retains_refl rfl rfl)

theorem straight_constant (value : Constant) : Straight holds (constant value) := by
  refine straight_edit fun a id next made => ?_
  have typed : ∀ value type, holds a { a with graph := (a.graph.typedConstant value type).2 } := fun value type =>
    strokes.trans _ _ _ (strokes.constant a value)
      (strokes.restyle _ (a.graph.constant value).1 (fun node => { node with type := type }) (fun _ => rfl) (fun _ => rfl)
        fun _ => rfl)
  have same := congrArg Prod.snd (Except.ok.inj made)
  dsimp only at same
  rw [← same]
  cases value with
  | int32 number | number number => exact typed _ _
  | _ => exact strokes.constant a _

protected theorem Strokes.add_node (inputs : List NodeId) (merge : op.isMerge = false) (phi : op.isPhi = false)
    (call : op.callSite? = none ∨ calls) : Straight holds (addNode op inputs) := by
  refine strokes.bind (straight_edit fun a id next made => ?_) fun id =>
    strokes.seq (straight_mark_breakpoint strokes id) (strokes.pure id)
  obtain ⟨_, counted, pushed⟩ := (Graph.add_node_eq_ok _).mp made
  cases pushed
  exact strokes.push a op inputs merge phi call counted

theorem straight_set_type (id : NodeId) (type : ValueType) :
    Straight holds (ofBuild (Build.change fun graph => graph.setType id type)) := by
  refine straight_edit fun a _ next made => ?_
  cases read : a.graph.node id with
  | error fault =>
    simp only [Graph.setType, read] at made
    cases made
  | ok node =>
    simp only [Graph.setType, read] at made
    cases made
    exact strokes.restyle a id (fun node => { node with type := type }) (fun _ => rfl) (fun _ => rfl) fun _ => rfl

protected theorem Strokes.position (operation : String) : Straight holds (position operation) := by
  refine strokes.get fun a => ?_
  split
  · exact strokes.pure _
  · exact strokes.seq (straight_report strokes _) (strokes.pure _)

protected theorem Strokes.set_current (current : Option Position) : Straight holds (setCurrent current) :=
  straight_modify fun a => strokes.current a current

theorem straight_add_effect_node (values : List NodeId) (operation : String) (merge : op.isMerge = false) (phi : op.isPhi = false)
    (call : op.callSite? = none ∨ calls) : Straight holds (addEffectNode op values operation) := by
  refine strokes.bind (strokes.position operation) fun position => ?_
  refine strokes.bind (strokes.of_except _) fun layout => ?_
  refine strokes.bind (strokes.add_node _ merge phi call) fun id => strokes.get fun a => ?_
  split
  · exact strokes.seq (strokes.set_current _) (strokes.pure _)
  · exact strokes.pure _

theorem straight_close (id : NodeId) : Straight holds (do
    ofBuild (Build.change fun graph => graph.mergeToEnd id)
    setCurrent none
    return id) := by
  refine strokes.seq (straight_edit fun a _ next made => ?_) (strokes.seq (strokes.set_current none) (strokes.pure id))
  cases entered : a.graph.mergeToEnd id with
  | error fault =>
    simp only [entered] at made
    cases made
  | ok graph =>
    simp only [entered] at made
    cases made
    exact strokes.exit a id next entered

omit strokes in
theorem plain_shape (plain : op.isControl = false) : op.isMerge = false ∧ op.callSite? = none := by
  cases op with
  | control kind =>
    cases kind with
    | merge count => cases plain
    | loop count => cases plain
    | _ => exact ⟨rfl, rfl⟩
  | call site => cases plain
  | tailCall site => cases plain
  | _ => exact ⟨rfl, rfl⟩

theorem straight_intern (descriptor : CallDescriptor) : Straight holds (ofBuild (Build.intern descriptor)) := by
  intro a _ b run
  simp only [runs_of_build, Build.intern, runs_bind, runs_get, runs_modify, runs_pure] at run
  obtain ⟨_, ⟨_, _, ⟨rfl, rfl⟩, _, _, rfl, _, rfl⟩, rfl⟩ := run
  exact strokes.annotate a ⟨a.graph, _, a.journal⟩ rfl (a.registry.retains_intern descriptor) rfl rfl

theorem straight_variable_value (id : VariableId) : Straight holds (variableValue id) := by
  refine strokes.bind (strokes.get fun a => strokes.of_except _) fun info => ?_
  dsimp only
  split
  · exact strokes.seq (straight_report strokes _) (strokes.pure _)
  · exact strokes.pure _

theorem Strokes.discipline : Discipline calls fun _ work _ => Straight holds work where
  pure _ value _ _ := strokes.pure value
  bind _ _ _ _ _ := strokes.bind
  map _ work change _ := straight_map work change
  more _ _ _ _ _ straight := straight
  forget _ _ _ _ _ straight := straight
  get _ _ _ := strokes.get
  ofExcept _ := strokes.of_except
  report _ := straight_report strokes
  notes _ := straight_notes strokes
  intern _ := straight_intern strokes
  hooks _ _ _ := straight_modify fun a => strokes.hooks a _ _
  breakOn _ _ := straight_modify fun a => strokes.breakOn a _
  generated _ := straight_modify fun a => strokes.generated a _
  markBreakpoint _ := straight_mark_breakpoint strokes
  setType _ := straight_set_type strokes
  addComment _ text := straight_edit fun a _ _ made => by cases made; exact strokes.comment a text
  constant _ := straight_constant strokes
  value op inputs plain phi _ := strokes.add_node inputs (plain_shape plain).1 phi (.inl (plain_shape plain).2)
  memory op values operation plain phi _ :=
    straight_add_effect_node strokes values operation (plain_shape plain).1 phi (.inl (plain_shape plain).2)
  emit _ values operation may := straight_add_effect_node strokes values operation rfl rfl (.inr may)
  terminator op values operation ends call := by
    obtain ⟨_, _, _, merge, phi⟩ := terminator_shape ends
    exact strokes.bind (straight_add_effect_node strokes values operation merge phi call) (straight_close strokes)

theorem Strokes.command
    (emits : ∀ descriptor target context arguments tail, Straight holds (call descriptor target context arguments tail))
    (command : Command) (straight : command.branches = false) : Straight holds command.run := by
  refine straight_command strokes.discipline emits straight ?_
  rintro var rfl
  exact strokes.bind (straight_variable_value strokes var) fun _ => strokes.pure _

protected theorem Strokes.query {question : Graph → Except Fault α} : Straight holds (ofBuild (Build.query question)) := by
  intro a result b run
  obtain ⟨_, done, rfl⟩ := runs_of_build.mp run
  obtain ⟨_, rfl⟩ := Build.runs_query.mp done
  exact strokes.refl a

theorem straight_variable_info (id : VariableId) : Straight holds (variableInfo id) :=
  strokes.get fun _ => strokes.of_except _

theorem straight_label_info (id : LabelId) : Straight holds (labelInfo id) :=
  strokes.get fun _ => strokes.of_except _

theorem straight_for_m (items : List α) (visit : α → Assembly PUnit) (each : ∀ item, Straight holds (visit item)) :
    Straight holds (items.forM visit) := by
  induction items with
  | nil => exact strokes.pure PUnit.unit
  | cons item rest ih => exact strokes.seq (each item) ih

structure Steers (holds : Assembler → Assembler → Prop) : Prop where
  newVariable : ∀ name representation, Straight holds (newVariable name representation)
  setVariable : ∀ id value, Straight holds (setVariable id value)
  releaseVariable : ∀ id, Straight holds (releaseVariable id)
  newLabel : ∀ kind declared, Straight holds (newLabel kind declared)
  arrive : ∀ id position, Straight holds (arrive id position)
  bind : ∀ id, Straight holds (Assembly.bind id)

variable (steers : Steers holds)

include steers

theorem straight_goto (id : LabelId) : Straight holds (goto id) :=
  strokes.bind (strokes.position _) fun _ =>
    strokes.seq (strokes.set_current none) (steers.arrive _ _)

theorem straight_branch (condition : NodeId) (ifTrue ifFalse : LabelId) : Straight holds (branch condition ifTrue ifFalse) :=
  strokes.bind (strokes.position _) fun _ =>
    strokes.seq (strokes.set_current none) <| strokes.bind (strokes.add_node _ rfl rfl (.inl rfl)) fun _ =>
        strokes.bind (strokes.add_node _ rfl rfl (.inl rfl)) fun _ =>
          strokes.bind (strokes.add_node _ rfl rfl (.inl rfl)) fun _ =>
            strokes.seq (steers.arrive _ _) (steers.arrive _ _)

theorem straight_switch (index : NodeId) (default : LabelId) (cases : List (Int32 × LabelId)) :
    Straight holds (switch index default cases) := by
  have leads (op : Operator) (node : NodeId) (id : LabelId) (effect : NodeId) (merge : op.isMerge = false)
      (phi : op.isPhi = false) (call : op.callSite? = none) :
      Straight holds (addNode op [node] >>= fun control => arrive id ⟨effect, control⟩) :=
    strokes.bind (strokes.add_node _ merge phi (.inl call)) fun _ =>
      steers.arrive _ _
  refine strokes.bind (strokes.position _) fun _ => ?_
  refine strokes.seq (strokes.set_current none) ?_
  refine strokes.bind (strokes.of_except _) fun ways => ?_
  refine strokes.bind (strokes.add_node _ rfl rfl (.inl rfl)) fun node => ?_
  exact strokes.seq (straight_for_m strokes _ _ fun way => leads _ node _ _ rfl rfl rfl) (leads _ node _ _ rfl rfl rfl)

theorem straight_goto_if_exception (site : NodeId) (handler : LabelId) (exception : Option VariableId) :
    Straight holds (gotoIfException site handler exception) := by
  refine strokes.bind (strokes.position _) fun position => ?_
  refine strokes.bind (strokes.query) fun op => ?_
  dsimp only
  split
  · refine strokes.bind (strokes.add_node _ rfl rfl (.inl rfl)) fun success => ?_
    refine strokes.bind (strokes.add_node _ rfl rfl (.inl rfl)) fun thrown => ?_
    have goes : Straight holds (setCurrent (some ⟨position.effect, success⟩)) := strokes.set_current _
    cases exception with
    | none => exact strokes.seq (steers.arrive _ _) goes
    | some id =>
      refine strokes.bind (straight_variable_info strokes id) fun info => ?_
      refine strokes.seq (steers.setVariable _ _) ?_
      refine strokes.seq (steers.arrive _ _) ?_
      exact strokes.seq (steers.setVariable _ _) goes
  · intro a result b impossible
    cases impossible

theorem Steers.branching : Branching fun _ work _ => Straight holds work where
  newVariable _ := steers.newVariable
  setVariable := steers.setVariable
  releaseVariable _ := steers.releaseVariable
  newLabel _ := steers.newLabel
  bind _ := steers.bind
  goto _ := straight_goto strokes steers
  branch := straight_branch strokes steers
  switch := straight_switch strokes steers

theorem Steers.command
    (emits : ∀ descriptor target context arguments tail, Straight holds (call descriptor target context arguments tail))
    (command : Command) : Straight holds command.run := by
  refine judged_command strokes.discipline (Steers.branching strokes steers) emits command ?_ ?_
  · rintro var rfl
    exact strokes.bind (straight_variable_value strokes var) fun _ => strokes.pure _
  · rintro site handler exception rfl
    exact strokes.seq (straight_goto_if_exception strokes steers site handler exception) (strokes.pure _)

end SeaOfNodes.Assembly
