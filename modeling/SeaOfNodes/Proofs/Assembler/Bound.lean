import SeaOfNodes.Proofs.Assembler.Phis

/-! What binding a label makes of the jumps to it: the merge, the phis, and the values of the variables in scope. -/

namespace SeaOfNodes

open List SeaOfNodes.Graph

variable {old new : Graph} {id : VariableId} {op : Operator} {inputs : List NodeId} {kind : LabelKind} {control : NodeId}
  {label : LabelInfo} {representation : Representation} {value : Option NodeId}

structure Leap where
  label : LabelId
  position : Position
  values : VariableId → Option NodeId

def Arrival.leap (label : LabelId) (arrival : Arrival) : Leap :=
  ⟨label, arrival.position, fun id => arrival.values.lookup id⟩

def brought (jumps : List Leap) (id : VariableId) : List NodeId := jumps.filterMap fun leap => leap.values id

def Agree (values : List NodeId) : Prop := ∀ first ∈ values, ∀ second ∈ values, first = second

instance (values : List NodeId) : Decidable (Agree values) :=
  inferInstanceAs (Decidable (∀ first ∈ values, ∀ second ∈ values, first = second))

namespace Graph

structure Prolongs (old new : Graph) : Prop where
  size : old.size ≤ new.size
  kept : ∀ id < old.size, new.node? id = old.node? id

structure Fresh (old new : Graph) (id : NodeId) (op : Operator) (inputs : List NodeId) : Prop where
  later : old.size ≤ id
  node : ∃ node, new.node? id = some node ∧ node.op = op ∧ node.inputs = inputs ∧ node.dead = false

theorem prolongs_refl {graph : Graph} : graph.Prolongs graph := ⟨le_rfl, fun _ _ => rfl⟩

theorem prolongs_trans {middle : Graph} (first : old.Prolongs middle) (second : middle.Prolongs new) : old.Prolongs new :=
  ⟨first.size.trans second.size, fun id inside =>
    (second.kept id (inside.trans_le first.size)).trans (first.kept id inside)⟩

theorem Fresh.prolonged {early late : Graph} {id : NodeId} (fresh : old.Fresh new id op inputs) (before : early.size ≤ old.size)
    (after : new.Prolongs late) : early.Fresh late id op inputs := by
  obtain ⟨node, read, shape⟩ := fresh.node
  exact ⟨before.trans fresh.later, node, (after.kept id (new.node_lt read)).trans read, shape⟩

end Graph

namespace Assembler

def value? (a : Assembler) (id : VariableId) : Option NodeId :=
  (a.vars.get? id).bind fun info => if info.live then info.value else none

def leap (a : Assembler) (label : LabelId) (position : Position) : Leap := ⟨label, position, a.value?⟩

def fallThrough (a : Assembler) (label : LabelId) : List Leap := a.current.toList.map (a.leap label)

end Assembler

inductive ControlMet (old new : Graph) (kind : LabelKind) (jumps : List Leap) : NodeId → Prop
  | alone (leap : Leap) (single : jumps = [leap]) (plain : kind ≠ .loop) : ControlMet old new kind jumps leap.position.control
  | merge (control : NodeId) (several : 1 < jumps.length) (plain : kind ≠ .loop)
      (fresh : old.Fresh new control (.control (.merge (UInt32.ofNat jumps.length))) (jumps.map fun leap => leap.position.control)) :
      ControlMet old new kind jumps control
  | loop (control : NodeId) (loops : kind = .loop)
      (fresh : old.Fresh new control (.control (.loop (UInt32.ofNat jumps.length))) (jumps.map fun leap => leap.position.control)) :
      ControlMet old new kind jumps control

inductive EffectMet (old new : Graph) (kind : LabelKind) (jumps : List Leap) (control effect : NodeId) : Prop
  | common (plain : kind ≠ .loop) (agree : ∀ leap ∈ jumps, leap.position.effect = effect)
  | phi (needed : kind = .loop ∨ ¬ Agree (jumps.map fun leap => leap.position.effect))
      (fresh : old.Fresh new effect (.effectPhi (UInt32.ofNat jumps.length))
        ((jumps.map fun leap => leap.position.effect) ++ [control]))

-- Whether a variable needs a phi: every jump brings it, and a loop declares it or the values are not all the same.
def Splits (label : LabelInfo) (jumps : List Leap) (id : VariableId) : Prop :=
  (∀ leap ∈ jumps, leap.values id ≠ none) ∧ (label.kind = .loop ∧ id ∈ label.declared ∨ ¬ Agree (brought jumps id))

inductive ValueMet (old new : Graph) (label : LabelInfo) (jumps : List Leap) (control : NodeId) (id : VariableId)
    (representation : Representation) : Option NodeId → Prop
  | unbound (leap : Leap) (member : leap ∈ jumps) (missing : leap.values id = none) :
      ValueMet old new label jumps control id representation none
  | common (value : NodeId) (whole : ¬ Splits label jumps id) (agree : ∀ leap ∈ jumps, leap.values id = some value) :
      ValueMet old new label jumps control id representation (some value)
  | phi (phi : NodeId) (values : List NodeId) (each : (jumps.map fun leap => leap.values id) = values.map some)
      (splits : Splits label jumps id)
      (fresh : old.Fresh new phi (.phi representation (UInt32.ofNat jumps.length)) (values ++ [control])) :
      ValueMet old new label jumps control id representation (some phi)

structure Met (a b : Assembler) (label : LabelInfo) (jumps : List Leap) (effect control : NodeId) : Prop where
  current : b.current = some ⟨effect, control⟩
  leads : ControlMet a.graph b.graph label.kind jumps control
  threads : EffectMet a.graph b.graph label.kind jumps control effect
  values : ∀ entry ∈ a.liveVariables, ∃ value, b.vars.get? entry.1 = some { entry.2 with value := value } ∧
    ValueMet a.graph b.graph label jumps control entry.1 entry.2.representation value
  apart : a.liveVariables.Pairwise fun first second => Splits label jumps first.1 → Splits label jumps second.1 →
    b.value? first.1 ≠ b.value? second.1

structure Bound (a b : Assembler) (id : LabelId) (label : LabelInfo) (jumps : List Leap) : Prop where
  unreached : jumps = [] → b.current = none ∧
    ∀ entry ∈ a.liveVariables, b.vars.get? entry.1 = some { entry.2 with value := none }
  reached : jumps ≠ [] → ∃ effect control, Met a b label jumps effect control
  released : ∀ var, var ∉ a.liveVariables.map Prod.fst → b.vars.get? var = a.vars.get? var
  graph : a.graph.Prolongs b.graph
  here : ∃ binding, b.labels.get? id = some { label with state := .bound binding }
  others : ∀ other, other ≠ id → b.labels.get? other = a.labels.get? other

-- Whether a variable cannot be joined though it has to be: some jump does not bring it, and the label declares it or the other
-- jumps disagree.
def Obstructs (label : LabelInfo) (jumps : List Leap) (id : VariableId) : Prop :=
  (∃ leap ∈ jumps, leap.values id = none) ∧ (id ∈ label.declared ∨ ¬ Agree (brought jumps id))

instance (label : LabelInfo) (jumps : List Leap) (id : VariableId) : Decidable (Obstructs label jumps id) :=
  inferInstanceAs (Decidable ((∃ leap ∈ jumps, leap.values id = none) ∧ (id ∈ label.declared ∨ ¬ Agree (brought jumps id))))

def complaint? (mode : JournalMode) (label : LabelInfo) (jumps : List Leap) (live : List (VariableId × VariableInfo)) :
    Option Fault :=
  if mode = .validating then
    (live.find? fun entry => Obstructs label jumps entry.1).map fun entry =>
      .fatal (.incompleteMerge label.name entry.2.name jumps.length (brought jumps entry.1).length)
  else none

def Assembler.obstacle? (a : Assembler) (label : LabelInfo) (jumps : List Leap) : Option Fault :=
  if UInt32.size ≤ jumps.length then some .assertion
  else complaint? a.journal.mode label jumps a.liveVariables

section

theorem agree_cons (first second : NodeId) (rest : List NodeId) :
    Agree (first :: second :: rest) ↔ first = second ∧ Agree (second :: rest) := by
  constructor
  · intro agree
    refine ⟨agree first (by simp) second (by simp), fun one here other there => ?_⟩
    exact agree one (mem_cons_of_mem _ here) other (mem_cons_of_mem _ there)
  · rintro ⟨rfl, agree⟩ one here other there
    exact agree one (by simpa using here) other (by simpa using there)

theorem differ_eq_true (values : List NodeId) : Assembly.differ values ↔ ¬ Agree values := by
  induction values with
  | nil => simp [Assembly.differ, Agree]
  | cons first rest ih =>
    cases rest with
    | nil => simp [Assembly.differ, Agree]
    | cons second rest =>
      have step : Assembly.differ (first :: second :: rest) = (first != second || Assembly.differ (second :: rest)) := rfl
      rw [step, Bool.or_eq_true, ih, agree_cons, bne_iff_ne, not_and_or]

theorem brought_whole (jumps : List Leap) (id : VariableId) :
    (brought jumps id).length = jumps.length ↔ ∀ leap ∈ jumps, leap.values id ≠ none := by
  simp only [brought, filterMap_length_eq_length, Option.isSome_iff_ne_none]

theorem brought_each {jumps : List Leap} (whole : ∀ leap ∈ jumps, leap.values id ≠ none) :
    (jumps.map fun leap => leap.values id) = (brought jumps id).map some := by
  induction jumps with
  | nil => rfl
  | cons leap rest ih =>
    obtain ⟨value, has⟩ := Option.ne_none_iff_exists'.mp (whole leap mem_cons_self)
    have head : brought (leap :: rest) id = value :: brought rest id := by rw [brought, filterMap_cons, has]; rfl
    rw [map_cons, ih fun other member => whole other (mem_cons_of_mem _ member), head, has, map_cons]

section

variable (mode : JournalMode) (label : LabelInfo) (jumps : List Leap) (entry : VariableId × VariableInfo)

theorem complaint_of_obstructs (obstructs : Obstructs label jumps entry.1) :
    complaint? mode label jumps [entry] = if mode = .validating then
      some (.fatal (.incompleteMerge label.name entry.2.name jumps.length (brought jumps entry.1).length)) else none := by
  simp [complaint?, obstructs]

theorem complaint_of_clear (clear : mode = .validating → ¬ Obstructs label jumps entry.1) :
    complaint? mode label jumps [entry] = none := by
  by_cases strict : mode = .validating
  · simp [complaint?, clear strict]
  · simp [complaint?, strict]

theorem complaint_cons (rest : List (VariableId × VariableInfo)) :
    complaint? mode label jumps (entry :: rest) = (complaint? mode label jumps [entry]).or (complaint? mode label jumps rest) := by
  by_cases strict : mode = .validating
  · by_cases obstructs : Obstructs label jumps entry.1 <;> simp [complaint?, strict, obstructs]
  · simp [complaint?, strict]

end

end

section

variable {early old new late : Graph} (before : early.size ≤ old.size) (after : new.Prolongs late)

include before after

theorem ControlMet.prolonged {jumps : List Leap} (met : ControlMet old new kind jumps control) :
    ControlMet early late kind jumps control := by
  cases met with
  | alone leap single plain => exact .alone leap single plain
  | merge _ several plain fresh => exact .merge control several plain (fresh.prolonged before after)
  | loop _ loops fresh => exact .loop control loops (fresh.prolonged before after)

theorem EffectMet.prolonged {jumps : List Leap} {effect : NodeId} (met : EffectMet old new kind jumps control effect) :
    EffectMet early late kind jumps control effect := by
  cases met with
  | common plain agree => exact .common plain agree
  | phi needed fresh => exact .phi needed (fresh.prolonged before after)

theorem ValueMet.prolonged {jumps : List Leap} (met : ValueMet old new label jumps control id representation value) :
    ValueMet early late label jumps control id representation value := by
  cases met with
  | unbound leap member missing => exact .unbound leap member missing
  | common value whole agree => exact .common value whole agree
  | phi phi values each splits fresh => exact .phi phi values each splits (fresh.prolonged before after)

end

theorem ValueMet.split {jumps : List Leap} (met : ValueMet old new label jumps control id representation value)
    (splits : Splits label jumps id) : ∃ phi, value = some phi ∧ old.size ≤ phi ∧ phi < new.size := by
  cases met with
  | unbound leap member missing => exact absurd missing (splits.1 leap member)
  | common value whole agree => exact absurd splits whole
  | phi phi values each _ fresh =>
    obtain ⟨node, read, _⟩ := fresh.node
    exact ⟨phi, rfl, fresh.later, new.node_lt read⟩

namespace Assembly

open Assembler

variable {a b : Assembler}

section

structure Appends (op : Operator) (inputs : List NodeId) (a b : Assembler) : Prop where
  size : b.graph.size = a.graph.size + 1
  fresh : a.graph.Fresh b.graph a.graph.size op inputs
  graph : a.graph.Prolongs b.graph
  vars : b.vars = a.vars
  labels : b.labels = a.labels
  current : b.current = a.current
  mode : b.journal.mode = a.journal.mode

theorem push_prolongs (graph : Graph) (node : Node) : graph.Prolongs (graph.push node).2 := by
  refine ⟨by rw [size_push]; exact Nat.le_succ _, fun id inside => ?_⟩
  rw [node_push, if_neg (inside.ne)]

theorem add_node_appends {id : NodeId} (run : addNode op inputs a = .ok id b) : id = a.graph.size ∧ Appends op inputs a b := by
  simp only [addNode, runs_bind, runs_of_build, runs_pure] at run
  obtain ⟨_, _, ⟨_, done, rfl⟩, _, _, marked, rfl, rfl⟩ := run
  obtain ⟨graph, made, rfl⟩ := Build.runs_edit.mp done
  obtain ⟨_, _, same⟩ := (add_node_eq_ok _).mp made
  obtain rfl := congrArg Prod.fst same
  obtain rfl := congrArg Prod.snd same
  have first := push_prolongs a.graph { op := op, inputs := inputs }
  have there : (a.graph.push { op := op, inputs := inputs }).2.node? a.graph.size = some { op := op, inputs := inputs } :=
    (node_push _ _ _).trans (if_pos rfl)
  rcases mark_breakpoint_runs marked with rfl | ⟨entry, rfl⟩
  · exact ⟨rfl, size_push _ _, ⟨le_rfl, _, there, rfl, rfl, rfl⟩, first, rfl, rfl, rfl, rfl⟩
  · -- The breakpoint is set on the new node.
    refine ⟨rfl, (size_modify _ _ _).trans (size_push _ _),
      ⟨le_rfl, { op := op, inputs := inputs, breakpoint := true }, ?_, rfl, rfl, rfl⟩,
      ⟨(size_modify _ _ _).symm ▸ first.size, fun other inside => ?_⟩, rfl, rfl, rfl, rfl⟩
    · rw [node_modify, push_id, if_pos rfl, there]
      rfl
    · rw [node_modify, push_id, if_neg (inside.ne), first.kept other inside]

theorem mark_breakpoint_returns (id : NodeId) {node : Node} (read : a.graph.node? id = some node) :
    ∃ b, markBreakpoint id a = .ok () b := by
  rw [markBreakpoint, bind_get]
  by_cases asked : a.breakOn = some id
  · have op : ofBuild (Build.query fun graph => graph.op id) a = .ok node.op a :=
      runs_of_build.mpr ⟨_, Build.runs_query.mpr ⟨(a.graph.op_eq_ok id node.op).mpr ⟨node, read, rfl⟩, rfl⟩, rfl⟩
    rw [if_pos asked, bind_of_ok _ a a node.op op]
    exact ⟨_, rfl⟩
  · rw [if_neg asked]
    exact ⟨a, rfl⟩

theorem add_node_returns (inputs : List NodeId) (a : Assembler) (fits : op.fits)
    (counted : inputs.length = op.layout.total) : ∃ b, addNode op inputs a = .ok a.graph.size b ∧ Appends op inputs a b := by
  have made := a.graph.add_node_eq_ok.mpr ⟨fits, counted, rfl⟩
  let pushed : Assembler := { a with graph := (a.graph.push { op := op, inputs := inputs }).2 }
  have built : ofBuild (Build.addNode op inputs) a = .ok a.graph.size pushed :=
    runs_of_build.mpr ⟨_, Build.runs_edit.mpr ⟨_, made, rfl⟩, rfl⟩
  have there : pushed.graph.node? a.graph.size = some { op := op, inputs := inputs } :=
    (node_push _ _ _).trans (if_pos rfl)
  obtain ⟨b, marked⟩ := mark_breakpoint_returns (a := pushed) _ there
  have run : addNode op inputs a = .ok a.graph.size b := by
    simp only [addNode, runs_bind, runs_pure]
    exact ⟨_, pushed, built, (), b, marked, rfl, rfl⟩
  exact ⟨b, run, (add_node_appends run).2⟩

theorem add_node_refuses (inputs : List NodeId) (a : Assembler) (fits : op.fits)
    (miscounted : inputs.length ≠ op.layout.total) : ∃ c, addNode op inputs a = .error .assertion c := by
  have refused : a.graph.addNode op inputs = .error .assertion := by
    have refuses : require (inputs.length == op.layout.total) = .error .assertion := by simp [require, miscounted]
    rw [Graph.addNode, Operator.checkedLayout, if_pos fits]
    change (require (inputs.length == op.layout.total) >>= _) = _
    rw [refuses]
    rfl
  have built : ofBuild (Build.addNode op inputs) a = .error .assertion a := by
    have edited : Build.addNode op inputs a.toWorkspace = .error .assertion a.toWorkspace := by
      rw [Build.addNode, Build.edit]
      refine bind_of_error _ _ _ ?_
      rw [Build.query, bind_get, refused]
      rfl
    rw [ofBuild, edited]
  exact ⟨a, bind_of_error _ _ _ built⟩

theorem report_foreseen (violation : Violation) (a : Assembler) :
    Foreseen (report violation) a (if a.journal.mode = .validating then some (.fatal violation) else none)
      fun _ b => ∃ journal, b = { a with journal := journal } ∧ journal.mode = a.journal.mode := by
  obtain ⟨⟨graph, registry, ⟨mode, violations, log⟩⟩, descriptor, config, parameters, current, vars, labels⟩ := a
  cases mode with
  | validating => exact foreseen_fails rfl
  | recording | silent => exact foreseen_returns () rfl ⟨_, rfl, rfl⟩

end

section

variable {entry : VariableId × VariableInfo} {merge : Option NodeId} {state : LabelState} (target : LabelId) (label : LabelInfo)
  (arrivals : List Arrival) (jumps : List Leap) (control : NodeId)

structure Joins (entry : VariableId × VariableInfo) (m b : Assembler) : Prop where
  graph : m.graph.Prolongs b.graph
  labels : b.labels = m.labels
  mode : b.journal.mode = m.journal.mode
  value : ∃ value, b.vars = m.vars.modify entry.1 (fun info => { info with value := value }) ∧
    ValueMet m.graph b.graph label jumps control entry.1 entry.2.representation value

structure JoinsAll (live : List (VariableId × VariableInfo)) (m b : Assembler) : Prop where
  graph : m.graph.Prolongs b.graph
  labels : b.labels = m.labels
  values : ∀ entry ∈ live, ∃ value, b.vars.get? entry.1 = some { entry.2 with value := value } ∧
    ValueMet m.graph b.graph label jumps control entry.1 entry.2.representation value
  apart : live.Pairwise fun first second => Splits label jumps first.1 → Splits label jumps second.1 →
    b.value? first.1 ≠ b.value? second.1
  others : ∀ id, id ∉ live.map Prod.fst → b.vars.get? id = m.vars.get? id

theorem join_fits {count : UInt32} {after : Nat} (shape : op.join? = some (count, after)) : op.fits := by
  rcases op.join_layout shape with ⟨layout, _⟩ | ⟨layout, _⟩ | ⟨layout, _⟩ <;> rw [Operator.fits, layout]
  · rfl
  · exact decide_eq_true count.toNat_lt_size
  · rfl

theorem add_join_returns (op : Operator) {count : Nat} (after : Nat) (inputs : List NodeId) (m : Assembler)
    (shape : op.join? = some (UInt32.ofNat count, after)) (few : count < UInt32.size) (length : inputs.length = count + after) :
    ∃ b, addNode op inputs m = .ok m.graph.size b ∧ Appends op inputs m b := by
  refine add_node_returns inputs m (join_fits shape) ?_
  rw [op.join_total shape, UInt32.toNat_ofNat', Nat.mod_eq_of_lt few, length]

theorem arrivals_brought (arrived : arrivals.map (Arrival.leap target) = jumps) (id : VariableId) :
    (arrivals.filterMap fun arrival => arrival.values.lookup id) = brought jumps id ∧ arrivals.length = jumps.length := by
  rw [← arrived, brought, filterMap_map, length_map]
  exact ⟨rfl, rfl⟩

-- Every jump brings the variable.
theorem merge_whole_variable (binding : Binding) (m : Assembler) (arrived : arrivals.map (Arrival.leap target) = jumps)
    (many : jumps ≠ []) (few : jumps.length < UInt32.size) (each : ∀ leap ∈ jumps, leap.values entry.1 ≠ none) :
    Foreseen (mergeVariable label arrivals control binding entry) m none fun _ b => Joins label jumps control entry m b := by
  obtain ⟨id, info⟩ := entry
  obtain ⟨values, count⟩ := arrivals_brought target arrivals jumps arrived id
  have whole := (brought_whole jumps id).mpr each
  rw [mergeVariable]
  dsimp only
  rw [values, count, if_neg (not_not_intro whole)]
  by_cases splits : ((decide (label.kind = .loop) && decide (id ∈ label.declared)) || differ (brought jumps id))
  · obtain ⟨b, run, appends⟩ := add_join_returns (.phi info.representation (UInt32.ofNat (brought jumps id).length)) 1 (brought jumps id ++ [control]) m rfl (whole ▸ few) (by simp)
    rw [if_pos splits]
    refine foreseen_returns _ (bind_of_ok _ _ _ _ run) ⟨appends.graph, appends.labels, appends.mode, some m.graph.size, ?_, ?_⟩
    · rw [← appends.vars]
    · refine .phi m.graph.size _ (brought_each each) ⟨each, ?_⟩ (whole ▸ appends.fresh)
      simpa [differ_eq_true] using splits
  · rw [if_neg splits]
    simp only [Bool.or_eq_true, Bool.and_eq_true, decide_eq_true_eq, differ_eq_true] at splits
    obtain ⟨value, last⟩ : ∃ value, (brought jumps id).getLast? = some value := by
      refine ⟨_, getLast?_eq_getLast_of_ne_nil fun empty => many ?_⟩
      rw [empty] at whole
      exact eq_nil_of_length_eq_zero whole.symm
    refine foreseen_returns _ rfl ⟨m.graph.prolongs_refl, rfl, rfl, some value, by rw [last], ?_⟩
    refine .common value (fun split => splits split.2) fun leap member => ?_
    obtain ⟨found, has⟩ := Option.ne_none_iff_exists'.mp (each leap member)
    have agree : Agree (brought jumps id) := Decidable.not_not.mp fun apart => splits (.inr apart)
    rw [has, agree found (mem_filterMap.mpr ⟨leap, member, has⟩) value (mem_of_getLast? last)]

-- Some jump does not.
theorem merge_lacking_variable (binding : Binding) (m : Assembler) (arrived : arrivals.map (Arrival.leap target) = jumps)
    {leap : Leap} (member : leap ∈ jumps) (missing : leap.values entry.1 = none) :
    Foreseen (mergeVariable label arrivals control binding entry) m (complaint? m.journal.mode label jumps [entry])
      fun _ b => Joins label jumps control entry m b := by
  obtain ⟨id, info⟩ := entry
  obtain ⟨values, count⟩ := arrivals_brought target arrivals jumps arrived id
  have lacks : (brought jumps id).length ≠ jumps.length := fun whole => (brought_whole jumps id).mp whole leap member missing
  have unset : ∀ c : Assembler, c.graph = m.graph → c.labels = m.labels → c.vars = m.vars → c.journal.mode = m.journal.mode →
      Foreseen (do setVariable id none; return binding) c none fun _ b => Joins label jumps control (id, info) m b := by
    intro c graph labels vars mode
    refine foreseen_returns binding rfl ⟨graph ▸ m.graph.prolongs_refl, labels, mode, none, ?_, .unbound leap member missing⟩
    rw [← vars]
  rw [mergeVariable]
  dsimp only
  rw [values, count, if_pos lacks]
  refine foreseen_after checks m.journal.checks rfl ?_
  by_cases needed : id ∈ label.declared ∨ ¬ Agree (brought jumps id)
  · have wanted : (decide (id ∈ label.declared) || differ (brought jumps id)) := by
      simpa [differ_eq_true] using needed
    rw [wanted, Bool.true_and, complaint_of_obstructs m.journal.mode label jumps (id, info) ⟨⟨leap, member, missing⟩, needed⟩]
    by_cases silent : m.journal.mode = .silent
    · have unchecked : ¬ m.journal.checks := by rw [Journal.checks, silent]; decide
      rw [if_neg unchecked, silent, if_neg (by decide)]
      exact unset m rfl rfl rfl rfl
    have checked : m.journal.checks := by simp [Journal.checks, silent]
    have reported := foreseen_bind (report_foreseen
      (.incompleteMerge label.name info.name jumps.length (brought jumps id).length) m) fun _ c kept => by
        obtain ⟨journal, rfl, mode⟩ := kept
        exact unset { m with journal := journal } rfl rfl rfl mode
    rw [Option.or_none] at reported
    rw [if_pos checked]
    exact reported
  · have clear := complaint_of_clear m.journal.mode label jumps (id, info) fun _ obstructs => needed obstructs.2
    have unwanted : (decide (id ∈ label.declared) || differ (brought jumps id)) = false := by
      rw [← Bool.not_eq_true]
      simpa [differ_eq_true] using needed
    rw [clear, unwanted, Bool.false_and, if_neg Bool.false_ne_true]
    exact unset m rfl rfl rfl rfl

theorem merge_variable_foreseen (binding : Binding) (entry : VariableId × VariableInfo) (m : Assembler)
    (arrived : arrivals.map (Arrival.leap target) = jumps) (many : jumps ≠ []) (few : jumps.length < UInt32.size) :
    Foreseen (mergeVariable label arrivals control binding entry) m (complaint? m.journal.mode label jumps [entry])
      fun _ b => Joins label jumps control entry m b := by
  by_cases each : ∀ leap ∈ jumps, leap.values entry.1 ≠ none
  · rw [complaint_of_clear m.journal.mode label jumps entry fun _ obstructs => by
      obtain ⟨⟨leap, member, missing⟩, _⟩ := obstructs
      exact each leap member missing]
    exact merge_whole_variable target label arrivals jumps control binding m arrived many few each
  · simp only [not_forall, Decidable.not_not] at each
    obtain ⟨leap, member, missing⟩ := each
    exact merge_lacking_variable target label arrivals jumps control binding m arrived member missing

-- The phi of the first variable is made before the others, so that none of them has the same.
theorem joins_all_cons {rest : List (VariableId × VariableInfo)} {m middle : Assembler} (alone : entry.1 ∉ rest.map Prod.fst)
    (known : ∀ other ∈ entry :: rest, m.vars.get? other.1 = some other.2 ∧ other.2.live)
    (joins : Joins label jumps control entry m middle) (all : JoinsAll label jumps control rest middle b) :
    JoinsAll label jumps control (entry :: rest) m b := by
  obtain ⟨value, vars, met⟩ := joins.value
  obtain ⟨read, inScope⟩ := known entry mem_cons_self
  have own : b.vars.get? entry.1 = some { entry.2 with value := value } := by
    rw [all.others entry.1 alone, vars, Pool.get_modify, if_pos rfl, read]
    rfl
  have value_of : ∀ {other : VariableId × VariableInfo} {value : Option NodeId}, other.2.live →
      b.vars.get? other.1 = some { other.2 with value := value } → b.value? other.1 = value := by
    intro other value live found
    simp [value?, found, live]
  refine ⟨prolongs_trans joins.graph all.graph, all.labels.trans joins.labels, ?_, pairwise_cons.mpr ⟨?_, all.apart⟩, ?_⟩
  · intro other member
    rcases mem_cons.mp member with rfl | later
    · exact ⟨value, own, met.prolonged (le_rfl) all.graph⟩
    · obtain ⟨last, found, after⟩ := all.values other later
      exact ⟨last, found, after.prolonged joins.graph.size prolongs_refl⟩
  · intro other member splits alsoSplits same
    obtain ⟨last, found, after⟩ := all.values other member
    obtain ⟨phi, rfl, _, early⟩ := met.split splits
    obtain ⟨another, rfl, late, _⟩ := after.split alsoSplits
    rw [value_of inScope own, value_of (known other (mem_cons_of_mem _ member)).2 found, Option.some.injEq] at same
    exact lt_irrefl _ (lt_of_lt_of_le (same ▸ early) late)
  · intro id absent
    rw [map_cons, mem_cons, not_or] at absent
    obtain ⟨apart, outside⟩ := absent
    rw [all.others id outside, vars, Pool.get_modify, if_neg apart]

theorem merge_variables_foreseen (binding : Binding) {live : List (VariableId × VariableInfo)} (m : Assembler)
    (arrived : arrivals.map (Arrival.leap target) = jumps) (many : jumps ≠ []) (few : jumps.length < UInt32.size)
    (distinct : (live.map Prod.fst).Nodup)
    (known : ∀ entry ∈ live, m.vars.get? entry.1 = some entry.2 ∧ entry.2.live) :
    Foreseen (live.foldlM (mergeVariable label arrivals control) binding) m (complaint? m.journal.mode label jumps live)
      fun _ b => JoinsAll label jumps control live m b := by
  induction live generalizing m binding with
  | nil =>
    have clear : complaint? m.journal.mode label jumps [] = none := by simp [complaint?]
    rw [clear]
    refine foreseen_returns binding rfl ⟨m.graph.prolongs_refl, rfl, ?_, .nil, fun _ _ => rfl⟩
    rintro entry ⟨⟩
  | cons entry rest ih =>
    obtain ⟨alone, others⟩ := nodup_cons.mp distinct
    rw [complaint_cons, foldlM_cons]
    refine foreseen_bind (merge_variable_foreseen target label arrivals jumps control binding entry m arrived many few) ?_
    intro next middle joins
    obtain ⟨_, vars, _⟩ := joins.value
    rw [← joins.mode]
    refine foreseen_mono (ih next middle others fun other member => ?_) fun final b all =>
      joins_all_cons label jumps control alone known joins all
    have apart : other.1 ≠ entry.1 := fun same => alone (same ▸ mem_map.mpr ⟨other, member, rfl⟩)
    rw [vars, Pool.get_modify, if_neg apart]
    exact known other (mem_cons_of_mem _ member)

theorem merge_effects_foreseen (m : Assembler) (few : jumps.length < UInt32.size)
    (single : merge = none → jumps.length ≤ 1 ∧ kind ≠ .loop) (leads : ∀ other, merge = some other → control = other) :
    Foreseen (mergeEffects kind merge (jumps.map fun leap => leap.position.effect)) m none fun effectPhi b =>
      m.graph.Prolongs b.graph ∧ b.labels = m.labels ∧ b.vars = m.vars ∧ b.journal.mode = m.journal.mode ∧
      ∀ first ∈ jumps, EffectMet m.graph b.graph kind jumps control (effectPhi.getD first.position.effect) := by
  have rests : kind ≠ .loop → differ (jumps.map fun leap => leap.position.effect) = false →
      ∀ first ∈ jumps, EffectMet m.graph m.graph kind jumps control first.position.effect := by
    intro plain same first member
    have agree : Agree (jumps.map fun leap => leap.position.effect) :=
      Decidable.not_not.mp fun apart => by rw [(differ_eq_true _).mpr apart] at same; cases same
    exact .common plain fun leap there => agree _ (mem_map.mpr ⟨leap, there, rfl⟩) _ (mem_map.mpr ⟨first, member, rfl⟩)
  cases merge with
  | none =>
    obtain ⟨one, plain⟩ := single rfl
    exact foreseen_returns none rfl ⟨m.graph.prolongs_refl, rfl, rfl, rfl, rests plain (differ_single (by simpa using one))⟩
  | some merge =>
    cases leads merge rfl
    rw [mergeEffects, length_map]
    by_cases needed : (decide (kind = .loop) || differ (jumps.map fun leap => leap.position.effect))
    · obtain ⟨b, run, appends⟩ := add_join_returns (.effectPhi (UInt32.ofNat jumps.length)) 1
        ((jumps.map fun leap => leap.position.effect) ++ [control]) m rfl few (by simp)
      rw [if_pos needed]
      refine foreseen_returns (some m.graph.size) (runs_map.mpr ⟨_, run, rfl⟩)
        ⟨appends.graph, appends.labels, appends.vars, appends.mode, fun _ _ => .phi ?_ appends.fresh⟩
      simpa [differ_eq_true] using needed
    · rw [if_neg needed]
      rw [Bool.or_eq_true, decide_eq_true_eq, not_or, Bool.not_eq_true] at needed
      exact foreseen_returns none rfl ⟨m.graph.prolongs_refl, rfl, rfl, rfl, rests needed.1 needed.2⟩

structure Routed (kind : LabelKind) (first : Position) (merge : Option NodeId) (a m : Assembler) : Prop where
  few : jumps.length < UInt32.size
  graph : a.graph.Prolongs m.graph
  labels : m.labels = a.labels
  vars : m.vars = a.vars
  mode : m.journal.mode = a.journal.mode
  single : merge = none → jumps.length ≤ 1 ∧ kind ≠ .loop
  leads : ControlMet a.graph m.graph kind jumps (merge.getD first.control)

theorem join_continues_foreseen {first : Arrival} {rest : List Arrival} {m : Assembler}
    (arrived : (first :: rest).map (Arrival.leap target) = jumps)
    (read : a.labels.get? target = some { label with state := state }) (routed : Routed jumps label.kind first.position merge a m) :
    Foreseen (do
      let effectPhi ← mergeEffects label.kind merge ((first :: rest).map fun arrival => arrival.position.effect)
      let binding ← (← get).liveVariables.foldlM (mergeVariable label (first :: rest) (merge.getD first.position.control))
        { paths := jumps.length, merge := merge, effectPhi := effectPhi }
      setLabelState target (.bound binding)
      setCurrent (some ⟨effectPhi.getD first.position.effect, merge.getD first.position.control⟩) : Assembly Unit) m
      (complaint? a.journal.mode label jumps a.liveVariables) fun _ b => Bound a b target label jumps := by
  obtain ⟨few, graph, labels, vars, mode, single, leads⟩ := routed
  have many : jumps ≠ [] := by
    rw [← arrived]
    exact cons_ne_nil _ _
  have effects : ((first :: rest).map fun arrival => arrival.position.effect) = jumps.map fun leap => leap.position.effect := by
    rw [← arrived, map_map]
    rfl
  have member : first.leap target ∈ jumps := by
    rw [← arrived]
    exact mem_cons_self
  have same : ∀ other, merge = some other → merge.getD first.position.control = other := by
    rintro _ rfl
    rfl
  rw [effects]
  generalize merge.getD first.position.control = control at leads same ⊢
  refine foreseen_pass (merge_effects_foreseen jumps control m few single same) ?_
  rintro effectPhi c ⟨grows, sameLabels, sameVars, sameMode, threads⟩
  refine foreseen_after get c rfl ?_
  have live : c.liveVariables = a.liveVariables := by rw [liveVariables, liveVariables, sameVars, vars]
  have joined := merge_variables_foreseen target label (first :: rest) jumps control
    { paths := jumps.length, merge := merge, effectPhi := effectPhi } c arrived many few
    (live_variables_nodup c) fun entry member => ⟨live_variable_read member, (mem_filter.mp member).2⟩
  rw [sameMode, mode, live] at joined
  rw [live]
  refine foreseen_last joined fun binding d all => ⟨(), _, rfl, ?_⟩
  have before := prolongs_trans graph grows
  have after : d.labels = a.labels := all.labels.trans (sameLabels.trans labels)
  refine ⟨fun none => absurd none many, fun _ => ⟨effectPhi.getD first.position.effect, control, rfl, ?_, ?_, ?_, ?_⟩, ?_, ?_, ?_, ?_⟩
  · exact leads.prolonged (le_rfl) (prolongs_trans grows all.graph)
  · exact (threads _ member).prolonged graph.size all.graph
  · intro entry member
    obtain ⟨value, found, met⟩ := all.values entry member
    exact ⟨value, found, met.prolonged before.size prolongs_refl⟩
  · exact all.apart
  · intro var released
    rw [← vars, ← sameVars]
    exact all.others var released
  · exact prolongs_trans before all.graph
  · refine ⟨binding, ?_⟩
    change (d.labels.modify target _).get? target = _
    rw [after, Pool.get_modify, if_pos rfl, read]
    rfl
  · intro other apart
    change (d.labels.modify target _).get? other = _
    rw [after, Pool.get_modify, if_neg apart]

theorem unset_variables (live : List (VariableId × VariableInfo)) (m : Assembler) :
    ∃ b, (live.forM fun entry => setVariable entry.1 none) m = .ok () b ∧ b.graph = m.graph ∧ b.labels = m.labels ∧
      b.current = m.current ∧
      (∀ id ∈ live.map Prod.fst, b.vars.get? id = (m.vars.get? id).map fun info => { info with value := none }) ∧
      ∀ id, id ∉ live.map Prod.fst → b.vars.get? id = m.vars.get? id := by
  induction live generalizing m with
  | nil => exact ⟨m, rfl, rfl, rfl, rfl, by simp, fun _ _ => rfl⟩
  | cons entry rest ih =>
    obtain ⟨b, run, graph, labels, current, unset, others⟩ :=
      ih { m with vars := m.vars.modify entry.1 fun info => { info with value := none } }
    refine ⟨b, run, graph, labels, current, fun id member => ?_, fun id absent => ?_⟩
    · by_cases later : id ∈ rest.map Prod.fst
      · rw [unset id later, Pool.get_modify]
        split
        · rename_i same
          rw [same]
          cases m.vars.get? entry.1 <;> rfl
        · rfl
      · have same : id = entry.1 := (mem_cons.mp member).resolve_right later
        rw [others id later, Pool.get_modify, if_pos same, same]
    · rw [map_cons, mem_cons, not_or] at absent
      rw [others id absent.2, Pool.get_modify, if_neg absent.1]

theorem obstacle_unreached (label : LabelInfo) (a : Assembler) : a.obstacle? label [] = none := by
  simp [obstacle?, complaint?, Obstructs]

theorem obstacle_or (label : LabelInfo) (jumps : List Leap) (a : Assembler) : a.obstacle? label jumps =
      (if UInt32.size ≤ jumps.length then some .assertion else none).or (complaint? a.journal.mode label jumps a.liveVariables) := by
  rw [obstacle?]
  split <;> rfl

-- The arity of a merge has to be the number of paths.
theorem add_merge_foreseen (op : Operator) (kind : LabelKind) (first : Position) (a : Assembler)
    (shape : op.join? = some (UInt32.ofNat jumps.length, 0))
    (leads : ∀ m, Appends op (jumps.map fun leap => leap.position.control) a m → ControlMet a.graph m.graph kind jumps a.graph.size) :
    Foreseen (some <$> addNode op (jumps.map fun leap => leap.position.control)) a
      (if UInt32.size ≤ jumps.length then some .assertion else none) fun merge m => Routed jumps kind first merge a m := by
  by_cases many : UInt32.size ≤ jumps.length
  · obtain ⟨c, failed⟩ := add_node_refuses (jumps.map fun leap => leap.position.control) a (join_fits shape) (by
      rw [op.join_total shape, length_map, UInt32.toNat_ofNat']
      have bounded := Nat.mod_lt jumps.length (show 0 < UInt32.size by decide)
      exact (ne_of_lt (bounded.trans_le many)).symm)
    rw [if_pos many]
    exact foreseen_fails (bind_of_error _ _ _ failed)
  · have few := Nat.lt_of_not_le many
    obtain ⟨m, run, appends⟩ := add_join_returns op 0 _ a shape few (length_map _)
    rw [if_neg many]
    exact foreseen_returns (some a.graph.size) (runs_map.mpr ⟨_, run, rfl⟩)
      ⟨few, appends.graph, appends.labels, appends.vars, appends.mode, by rintro ⟨⟩, leads m appends⟩

theorem merge_paths_foreseen (kind : LabelKind) {first : Leap} {alone : Bool} (a : Assembler)
    (one : alone → jumps = [first]) (several : ¬ alone → 1 < jumps.length)
    {next : Option NodeId → Assembly Unit} {later? : Option Fault} {good : Unit → Assembler → Prop}
    (goes : ∀ merge m, Routed jumps kind first.position merge a m → Foreseen (next merge) m later? good) :
    Foreseen (if kind = .loop then
        (some <$> addNode (.control (.loop (UInt32.ofNat jumps.length))) (jumps.map fun leap => leap.position.control)) >>= next
      else if alone = true then pure none >>= next
      else (some <$> addNode (.control (.merge (UInt32.ofNat jumps.length))) (jumps.map fun leap => leap.position.control)) >>= next)
      a ((if UInt32.size ≤ jumps.length then some .assertion else none).or later?) good := by
  by_cases loops : kind = .loop
  · rw [if_pos loops]
    refine foreseen_bind (add_merge_foreseen jumps (.control (.loop _)) kind first.position a rfl fun m appends => ?_) goes
    exact .loop a.graph.size loops appends.fresh
  rw [if_neg loops]
  by_cases single : alone
  · have jump := one single
    have length : jumps.length = 1 := by rw [jump]; rfl
    rw [if_pos single, if_neg (by rw [length]; decide), Option.none_or]
    refine foreseen_after (pure none) none rfl (goes none a ?_)
    exact ⟨by rw [length]; decide, a.graph.prolongs_refl, rfl, rfl, rfl, fun _ => ⟨length.le, loops⟩,
      .alone first jump loops⟩
  · rw [if_neg single]
    refine foreseen_bind (add_merge_foreseen jumps (.control (.merge _)) kind first.position a rfl fun m appends => ?_) goes
    exact .merge a.graph.size (several single) loops appends.fresh

theorem bind_arrivals_foreseen {a : Assembler} (read : a.labels.get? target = some { label with state := state })
    (arrived : arrivals.map (Arrival.leap target) = jumps) :
    Foreseen (bindArrivals target label arrivals) a (a.obstacle? label jumps) fun _ b => Bound a b target label jumps := by
  cases arrivals with
  | nil =>
    obtain rfl : jumps = [] := arrived.symm
    rw [obstacle_unreached]
    let cut : Assembler := { a with
      labels := a.labels.modify target fun info => { info with state := .bound { paths := 0 } }
      current := none }
    obtain ⟨b, run, graph, labels, current, unset, others⟩ := unset_variables a.liveVariables cut
    refine foreseen_returns () run ⟨fun _ => ⟨current, fun entry member => ?_⟩, fun some_ => absurd rfl some_, ?_, ?_, ?_, ?_⟩
    · rw [unset entry.1 (mem_map.mpr ⟨entry, member, rfl⟩), live_variable_read member]
      rfl
    · exact others
    · exact graph ▸ a.graph.prolongs_refl
    · refine ⟨{ paths := 0 }, ?_⟩
      rw [labels, Pool.get_modify, if_pos rfl, read]
      rfl
    · intro other apart
      rw [labels, Pool.get_modify, if_neg apart]
  | cons first rest =>
    have count : (first :: rest).length = jumps.length := by rw [← arrived, length_map]
    have controls : ((first :: rest).map fun arrival => arrival.position.control) = jumps.map fun leap => leap.position.control := by
      rw [← arrived, map_map]
      rfl
    have alone : rest.isEmpty → jumps = [first.leap target] := by
      intro empty
      rw [← arrived, isEmpty_iff.mp empty]
      rfl
    have several : ¬ rest.isEmpty → 1 < jumps.length := by
      intro more
      rw [List.isEmpty_iff, ← ne_eq, ← length_pos_iff] at more
      rw [← count, length_cons]
      exact Nat.succ_lt_succ more
    simp only [bindArrivals]
    rw [count, controls, obstacle_or]
    refine merge_paths_foreseen jumps label.kind a alone several fun merge m routed => ?_
    exact join_continues_foreseen target label jumps arrived read routed

end

section

variable {info : LabelInfo}

theorem lookup_of_mem {α : Type} {entries : List (Nat × α)} {key : Nat} {value : α} (distinct : (entries.map Prod.fst).Nodup)
    (member : (key, value) ∈ entries) : entries.lookup key = some value := by
  obtain ⟨front, back, rfl⟩ := append_of_mem member
  refine lookup_eq_some_iff.mpr ⟨front, back, rfl, fun entry before => ?_⟩
  rw [map_append, map_cons, nodup_append] at distinct
  have apart := distinct.2.2 entry.1 (mem_map.mpr ⟨entry, before, rfl⟩) key mem_cons_self
  simpa using Ne.symm apart

theorem recorded_value (a : Assembler) (id : VariableId) :
    (a.liveVariables.filterMap fun entry => entry.2.value.map (entry.1, ·)).lookup id = a.value? id := by
  have distinct : ((a.liveVariables.filterMap fun entry => entry.2.value.map (entry.1, ·)).map Prod.fst).Nodup := by
    rw [Nodup, pairwise_map, pairwise_filterMap]
    refine (pairwise_map.mp (live_variables_nodup a)).imp fun {first second} apart one here other there => ?_
    obtain ⟨_, _, rfl⟩ := Option.map_eq_some_iff.mp here
    obtain ⟨_, _, rfl⟩ := Option.map_eq_some_iff.mp there
    exact apart
  ext value
  constructor
  · intro found
    obtain ⟨entry, live, mapped⟩ := mem_filterMap.mp (mem_of_lookup _ _ found)
    obtain ⟨_, has, same⟩ := Option.map_eq_some_iff.mp mapped
    obtain ⟨rfl, rfl⟩ := Prod.mk.inj same
    simp [value?, live_variable_read live, (mem_filter.mp live).2, has]
  · intro found
    simp only [value?, Option.bind_eq_some_iff, Option.ite_none_right_eq_some] at found
    obtain ⟨info, read, live, has⟩ := found
    refine lookup_of_mem distinct (mem_filterMap.mpr ⟨(id, info), ?_, by rw [has]; rfl⟩)
    exact mem_filter.mpr ⟨(a.vars.mem_entries id info).mpr read, live⟩

theorem recorded_leap (a : Assembler) (label : LabelId) (position : Position) :
    Arrival.leap label ⟨position, a.liveVariables.filterMap fun entry => entry.2.value.map (entry.1, ·)⟩ = a.leap label position := by
  rw [Arrival.leap, leap]
  congr 1
  funext id
  exact recorded_value a id

theorem label_info_returns {id : LabelId} {a : Assembler} (read : a.labels.get? id = some info) :
    labelInfo id a = .ok info a := by
  simp only [labelInfo, runs_bind, runs_get, runs_of_except, Pool.get, present_eq_ok]
  exact ⟨a, a, ⟨rfl, rfl⟩, read, rfl⟩

theorem arrive_waits {id : LabelId} (position : Position) {arrivals : List Arrival} {a : Assembler}
    (read : a.labels.get? id = some info) (waits : info.state = .waiting arrivals) :
    arrive id position a = .ok () { a with labels := a.labels.modify id fun info => { info with state := .waiting (arrivals ++
      [⟨position, a.liveVariables.filterMap fun entry => entry.2.value.map (entry.1, ·)⟩]) } } := by
  rw [arrive, bind_of_ok _ _ _ _ (label_info_returns read), bind_get]
  dsimp only
  rw [waits]
  rfl

theorem bind_foreseen {id : LabelId} {label : LabelInfo} {arrivals : List Arrival} {a : Assembler}
    (read : a.labels.get? id = some label) (waits : label.state = .waiting arrivals) :
    Foreseen (Assembly.bind id) a (a.obstacle? label (arrivals.map (Arrival.leap id) ++ a.fallThrough id)) fun _ b =>
      Bound a b id label (arrivals.map (Arrival.leap id) ++ a.fallThrough id) := by
  have unbound : ¬ label.isBound := by rw [LabelInfo.isBound, waits]; exact Bool.false_ne_true
  rw [Assembly.bind]
  refine foreseen_after (labelInfo id) label (label_info_returns read) ?_
  rw [if_neg unbound]
  refine foreseen_after get a rfl ?_
  cases current : a.current with
  | none =>
    have alone : arrivals.map (Arrival.leap id) ++ a.fallThrough id = arrivals.map (Arrival.leap id) := by
      rw [fallThrough, current]
      exact append_nil _
    rw [alone]
    refine foreseen_after (labelInfo id) label (label_info_returns read) ?_
    rw [waits]
    exact bind_arrivals_foreseen id label arrivals _ read rfl
  | some position =>
    let arrival : Arrival := ⟨position, a.liveVariables.filterMap fun entry => entry.2.value.map (entry.1, ·)⟩
    let m : Assembler := { a with
      current := none
      labels := a.labels.modify id fun info => { info with state := .waiting (arrivals ++ [arrival]) } }
    have met : (arrivals ++ [arrival]).map (Arrival.leap id) = arrivals.map (Arrival.leap id) ++ a.fallThrough id := by
      rw [fallThrough, current, map_append]
      exact congrArg (fun leap => arrivals.map (Arrival.leap id) ++ [leap]) (recorded_leap a id position)
    have there : m.labels.get? id = some { label with state := .waiting (arrivals ++ [arrival]) } := by
      rw [Pool.get_modify, if_pos rfl, read]
      rfl
    refine foreseen_after (setCurrent none) () rfl ?_
    refine foreseen_after (arrive id position) () (arrive_waits position read waits) ?_
    refine foreseen_after (labelInfo id) _ (label_info_returns there) ?_
    refine foreseen_mono (bind_arrivals_foreseen id label _ _ there met) ?_
    intro _ b bound
    refine ⟨bound.unreached, fun reached => ?_, bound.released, bound.graph, bound.here, fun other apart => ?_⟩
    · obtain ⟨effect, control, met⟩ := bound.reached reached
      exact ⟨effect, control, met.current, met.leads, met.threads, met.values, met.apart⟩
    · rw [bound.others other apart, Pool.get_modify, if_neg apart]

end

end Assembly

end SeaOfNodes
