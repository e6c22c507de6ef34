import SeaOfNodes.Creation.Call
import SeaOfNodes.Proofs.Call.Interning
import SeaOfNodes.Proofs.Creation.Drafts

/-! A creation is expanded, or becomes a call in its place. -/

namespace SeaOfNodes

open List SeaOfNodes.Graph

variable {rank : NodeId → Nat} {graph : Graph} {id control : NodeId} {node : Node} {s : Workspace} {site : CallSite}

def Reduces (rank : NodeId → Nat) (s : Workspace) (id : NodeId) (reduction : Reduction) (t : Workspace) : Prop :=
  reduction = .unchanged ∧ t.graph = s.graph ∧ t.journal.mode = s.journal.mode ∨
    s.graph.pending id = true ∧ Succeeds rank s id reduction t

theorem creates_of_creation (sound : Lowerable rank graph) (live : graph.Live id node) (creates : node.op.isCreation) :
    ∃ control, Creates graph id control node := by
  have counted := (sound.nodes id node live).counted
  rw [InputLayout.total, (creation_layout node.op creates).2.2.1] at counted
  have inside : node.op.layout.firstControl < node.inputs.length := by omega
  exact ⟨_, live, creates, getElem?_eq_getElem inside⟩

theorem creates_feeds (sound : Lowerable rank graph) (here : Creates graph id control node) : graph.Feeds id control where
  lives := ⟨node, here.live⟩
  control := by
    have controls : node.op.layout.controls = 1 := (creation_layout node.op here.creates).2.2.1
    simp only [controlInput, bind_eq_ok, layout_eq_ok, require_eq_ok, input_eq_ok, decide_eq_true_eq]
    refine ⟨_, ⟨node, here.live.1, (sound.nodes id node here.live).fits, rfl⟩, (), ?_, node, here.live.1, here.control⟩
    rw [controls]
    exact one_pos
  closed other input lives taken := by
    obtain ⟨definition, live⟩ := lives
    rw [graph.inputs_of_eq other definition live.1] at taken
    exact (sound.nodes other definition live).inputs input taken

theorem CreationContext.reduce_yields (c : CreationContext) (sound : Lowerable rank s.graph)
    (tolerant : s.journal.mode ≠ .validating) (lives : s.graph.HasLive id) :
    Build.Yields (c.reduce id) s (Reduces rank s id) := by
  obtain ⟨node, live⟩ := lives
  have op : s.graph.op id = .ok node.op := (s.graph.op_eq_ok id node.op).mpr ⟨node, live.1, rfl⟩
  have decided : Yields (c.decide s.graph id) fun decision => ∀ plan, decision = .inline plan →
      ∃ control, Creates s.graph id control node ∧ plan.Sound s.graph control := by
    rw [decide, op]
    refine yields_bind (node.op = ·) (yields_pure rfl) ?_
    rintro _ rfl
    split
    · rename_i request creation
      obtain ⟨control, here⟩ := creates_of_creation sound live (by rw [creation]; rfl)
      refine yields_mono (@decide_fine False True s.graph id control c (fun _ => creates_feeds sound here) request
        (creation ▸ op) False.elim) ?_
      rintro _ fine plan rfl
      exact ⟨control, here, fine.2 trivial⟩
    · exact yields_pure fun plan same => by cases same
  refine Build.yields_query_then (yields_mono decided fun _ _ => trivial) fun decision done => ?_
  cases decision with
  | inline plan =>
    obtain ⟨control, here, plans⟩ := yields_ok _ _ decided done plan rfl
    have waits := (pending_iff s.graph id).mpr ⟨node, here.live, here.creates⟩
    exact Build.yields_mono (plan.execute_yields sound tolerant here plans c.config.maxObjectSize)
      fun reduction t success => .inr ⟨waits, success⟩
  | decline => exact Build.yields_pure (.inl ⟨rfl, rfl, rfl⟩)
  | declineLiteral reason =>
    exact Build.yields_bind s (fun _ t => t.graph = s.graph ∧ t.journal.mode = s.journal.mode) _
      (Build.yields_note s ⟨rfl, rfl⟩) fun _ t same => Build.yields_pure (.inl ⟨rfl, same⟩)

namespace Graph

-- The node keeps its place in the control flow.
theorem lowerable_call {later : Graph} (lowerable : Lowerable rank graph) (here : Creates graph id control node) {next : Node}
    (op : next.op = .call site) (edited : Edited graph later id next) (live : next.dead = false)
    (counted : next.inputs.length = (Operator.call site).layout.total) (inputs : ∀ input ∈ next.inputs, graph.HasLive input)
    (follows : control ∈ controlInputs next) : Lowerable rank later := by
  have forward := edited_lives edited live
  have used : ∀ other, graph.ControlUsed other → later.ControlUsed other := by
    rintro other ⟨user, reader, alive, member⟩
    by_cases same : user = id
    · subst same
      obtain rfl := live_unique graph here.live alive
      rw [creates_only lowerable here member]
      exact ⟨user, next, ⟨edited.here, live⟩, follows⟩
    · exact ⟨user, reader, (live_elsewhere edited same).mpr alive, member⟩
  refine ⟨edited.mirrored lowerable.mirrored, ?_, ?_⟩
  · obtain ⟨first, alive, begins⟩ := lowerable.entry
    have apart := creates_ne_start lowerable here
    exact ⟨first, (live_elsewhere edited (Ne.symm apart)).mpr alive, begins⟩
  intro other after alive
  by_cases same : other = id
  · subst same
    obtain rfl : next = after := Option.some.inj (edited.here.symm.trans alive.1)
    have ready := lowerable.nodes other node here.live
    refine ⟨?_, op ▸ counted, ?_, ?_, ?_, ?_, ?_, ?_⟩
    · rw [op]
      exact decide_eq_true site.valueInputs.toNat_lt_size
    · intro input member
      obtain ⟨definition, known⟩ := inputs input member
      exact forward input definition known
    · intro passed _
      exact used other (ready.leads passed (creation_layout node.op here.creates).2.2.2)
    · intro begins
      rw [op] at begins
      cases begins
    · intro _
      rw [op]
      rfl
    · intro tracked
      rw [op] at tracked
      cases tracked
    · intro creates
      rw [op] at creates
      cases creates
  · exact ready_transport after (lowerable.nodes other after ((live_elsewhere edited same).mp alive)) rfl rfl forward (used other)

end Graph

namespace Graph

theorem constant_keeps (graph : Graph) (value : Constant) (read : graph.node? id = some node) :
    (graph.constant value).2.node? id = some node := by
  cases found : (graph.constants.lookup value).filter graph.isLive with
  | some known =>
    rw [constant, found]
    exact read
  | none =>
    rw [constant_new found]
    exact (graph.node_push _ id).trans (by rw [if_neg (ne_of_lt (graph.node_lt read)), read])

-- What is added without a path takes no inputs.
theorem adds_inputs_of {old new : Graph} (added : old.Adds new []) (other : NodeId) : new.inputsOf other = old.inputsOf other := by
  cases read : old.node? other with
  | some former =>
    obtain ⟨type, kept⟩ := added.grown.kept other former read
    rw [old.inputs_of_eq other former read, new.inputs_of_eq other _ kept]
  | none =>
    have late : old.size ≤ other := Array.getElem?_eq_none_iff.mp read
    rw [old.inputs_of_none read]
    cases there : new.node? other with
    | none => exact new.inputs_of_none there
    | some next =>
      obtain listed | ⟨_, _, none⟩ := added.others other next late there
      · cases listed
      · rw [new.inputs_of_eq other next there, none]

end Graph

structure Node.Creates (node : Node) (request : Creation) (values : List NodeId) (context : NodeId)
    (frameState : Option NodeId) (effect control : NodeId) : Prop where
  live : node.dead = false
  op : node.op = .create request
  fits : node.op.fits = true
  inputs : node.inputs = values ++ [context] ++ frameState.toList ++ [effect, control]
  counted : values.length = request.layout.values
  framed : frameState.isSome = request.layout.frameState

theorem Node.creates_parts (node : Node) {request : Creation} (live : node.dead = false) (op : node.op = .create request)
    (fits : node.op.fits) (counted : node.inputs.length = node.op.layout.total) :
    ∃ values context frameState effect control, node.Creates request values context frameState effect control := by
  obtain ⟨context, effects, controls, _⟩ := creation_layout node.op (by rw [op]; rfl)
  have behind : (node.inputs.drop node.op.layout.values).length = 3 + node.op.layout.frameState.toNat := by
    rw [length_drop, counted, InputLayout.total, InputLayout.firstControl, InputLayout.firstEffect,
      InputLayout.frameStateIndex, context, effects, controls, Bool.toNat_true]
    omega
  have front : (node.inputs.take node.op.layout.values).length = node.op.layout.values := by
    rw [length_take, Nat.min_eq_left]
    rw [counted, InputLayout.total, InputLayout.firstControl, InputLayout.firstEffect, InputLayout.frameStateIndex]
    omega
  have whole := take_append_drop node.op.layout.values node.inputs
  have layout : node.op.layout = request.layout := by rw [op]; rfl
  cases framed : node.op.layout.frameState with
  | false =>
    rw [framed] at behind
    obtain ⟨context, effect, control, rest⟩ := length_eq_three.mp behind
    rw [rest] at whole
    exact ⟨_, context, none, effect, control, live, op, fits, whole.symm.trans (by simp), front.trans (by rw [layout]),
      layout ▸ framed.symm⟩
  | true =>
    rw [framed] at behind
    obtain ⟨context, tail, rest⟩ := exists_cons_of_length_eq_add_one behind
    rw [rest, length_cons] at behind
    obtain ⟨state, effect, control, rfl⟩ := length_eq_three.mp (Nat.succ.inj behind)
    rw [rest] at whole
    exact ⟨_, context, some state, effect, control, live, op, fits, whole.symm.trans (by simp),
      front.trans (by rw [layout]), layout ▸ framed.symm⟩

namespace Node.Creates

variable {node : Node} {request : Creation} {values : List NodeId} {context : NodeId} {frameState : Option NodeId}
  {effect control : NodeId} (parts : node.Creates request values context frameState effect control) {graph : Graph} {id : NodeId}
  (read : ∃ type, graph.node? id = some { node with type := type })

include parts

theorem places : node.op.layout.values = values.length ∧ node.op.layout.contextIndex = values.length ∧
    node.op.layout.frameStateIndex = values.length + 1 ∧
    node.op.layout.firstEffect = values.length + 1 + frameState.toList.length ∧
    node.op.layout.firstControl = values.length + 1 + frameState.toList.length + 1 := by
  obtain ⟨context, effects, _⟩ := creation_layout node.op (by rw [parts.op]; rfl)
  have layout : node.op.layout = request.layout := by rw [parts.op]; rfl
  have state : node.op.layout.frameState.toNat = frameState.toList.length := by
    rw [layout, ← parts.framed]
    cases frameState <;> rfl
  have count : node.op.layout.values = values.length := by rw [layout, parts.counted]
  simp only [InputLayout.contextIndex, InputLayout.frameStateIndex, InputLayout.firstEffect, InputLayout.firstControl, context,
    effects, state, count, Bool.toNat_true, and_self]

theorem creates (live : graph.Live id node) : graph.Creates id control node where
  live := live
  creates := by rw [parts.op]; rfl
  control := by
    rw [parts.inputs, parts.places.2.2.2.2]
    cases frameState <;> simp [add_assoc]

include read

-- Neither the layout nor the inputs hang on the type.
theorem layout_read : graph.layout id = .ok node.op.layout := by
  obtain ⟨type, read⟩ := read
  exact (graph.layout_eq_ok id _).mpr ⟨_, read, parts.fits, rfl⟩

theorem input_read (index : Nat) (input : NodeId)
    (found : (values ++ [context] ++ frameState.toList ++ [effect, control])[index]? = some input) :
    graph.input id index = .ok input := by
  obtain ⟨type, read⟩ := read
  exact (graph.input_eq_ok id index input).mpr ⟨_, read, by rw [← found, parts.inputs]⟩

omit parts in
theorem op_read : graph.op id = .ok node.op := by
  obtain ⟨type, read⟩ := read
  exact (graph.op_eq_ok id node.op).mpr ⟨_, read, rfl⟩

theorem values_read : graph.valueInputs id = .ok values := by
  simp only [valueInputs, bind_eq_ok, pure_eq_ok]
  obtain ⟨type, here⟩ := read
  refine ⟨_, parts.layout_read ⟨type, here⟩, _, (graph.node_eq_ok id _).mpr here, ?_⟩
  show node.inputs.take _ = _
  rw [parts.inputs, parts.places.1, append_assoc, append_assoc, take_left]

theorem value_read (index : Nat) (value : NodeId) (found : values[index]? = some value) : graph.valueInput id index = .ok value := by
  have inside : index < values.length := (List.getElem?_eq_some_iff.mp found).1
  simp only [valueInput, bind_eq_ok, require_eq_ok, decide_eq_true_eq]
  refine ⟨_, parts.layout_read read, (), by rw [parts.places.1]; exact inside, parts.input_read read index value ?_⟩
  rw [append_assoc, append_assoc, getElem?_append_left inside, found]

theorem context_read : graph.contextInput? id = .ok (some context) := by
  simp only [contextInput?, bind_eq_ok]
  refine ⟨_, parts.layout_read read, ?_⟩
  rw [if_pos (creation_layout node.op (by rw [parts.op]; rfl)).1, parts.places.2.1,
    parts.input_read read values.length context (by simp)]
  rfl

theorem state_read : graph.frameStateInput? id = .ok frameState := by
  have layout : node.op.layout.frameState = frameState.isSome := by rw [parts.framed, parts.op]; rfl
  simp only [frameStateInput?, bind_eq_ok]
  refine ⟨_, parts.layout_read read, ?_⟩
  cases frameState with
  | none =>
    rw [layout]
    rfl
  | some state =>
    rw [layout, if_pos Option.isSome_some, parts.places.2.2.1, parts.input_read read _ state (by simp)]
    rfl

theorem effect_read : graph.effectInput id = .ok effect := by
  simp only [effectInput, bind_eq_ok, require_eq_ok, decide_eq_true_eq]
  refine ⟨_, parts.layout_read read, (), by rw [(creation_layout node.op (by rw [parts.op]; rfl)).2.1]; exact one_pos, ?_⟩
  rw [parts.places.2.2.2.1]
  exact parts.input_read read _ effect (by cases frameState <;> simp [add_assoc])

theorem control_read : graph.controlInput id = .ok control := by
  simp only [controlInput, bind_eq_ok, require_eq_ok, decide_eq_true_eq]
  refine ⟨_, parts.layout_read read, (), by rw [(creation_layout node.op (by rw [parts.op]; rfl)).2.2.1]; exact one_pos, ?_⟩
  rw [parts.places.2.2.2.2]
  exact parts.input_read read _ control (by cases frameState <;> simp [add_assoc])

end Node.Creates

structure CallAgrees (s t : Workspace) (id : NodeId) (node : Node) (site : CallSite) (callee : CallDescriptor)
    (values : List NodeId) : Prop where
  known : t.registry.get site.descriptor = .ok callee
  counted : site.valueInputs.toNat = callee.inputCount
  returns : site.returns.toNat = callee.returnCount
  frameState : site.frameState = callee.flags.needsFrameState
  properties : site.properties = callee.properties
  width : values.length + 1 = callee.inputCount
  here : ∃ context frameState effect control, s.graph.contextInput? id = .ok (some context) ∧
    s.graph.frameStateInput? id = .ok frameState ∧ s.graph.effectInput id = .ok effect ∧ s.graph.controlInput id = .ok control ∧
    (site.frameState = true → frameState.isSome = true) ∧
    t.graph.node? id = some { node with
      op := .call site
      inputs := values ++ [context] ++ (if site.frameState then frameState.toList else []) ++ [effect, control] }
  elsewhere : ∀ other, other ≠ id → t.graph.inputsOf other = s.graph.inputsOf other

inductive CallTarget (graph : Graph) : List NodeId → Prop
  | runtime (function : RuntimeFunction) (arguments : List NodeId) (entry routine count : NodeId) (number : Int32)
      (entered : graph.Denotes entry (.code (.runtimeEntry function.resultSize)))
      (addressed : graph.Denotes routine (.external (.runtimeFunction function)))
      (numbered : graph.Denotes count (.int32 number)) (exact_ : number.toInt = arguments.length)
      (declared : ∀ arity, function.arity? = some arity → arity.toNat = arguments.length) :
      CallTarget graph (entry :: arguments ++ [routine, count])
  | stub (builtin : Builtin) (arguments : List NodeId) (code : NodeId) (plain : ∀ results, builtin ≠ .runtimeEntry results)
      (named : graph.Denotes code (.code builtin)) : CallTarget graph (code :: arguments)

namespace CreationCall

variable {values frameState : List NodeId} {rank : NodeId → Nat}

section

structure Alters (id : NodeId) (t : Workspace) (next : Node) (u : Workspace) : Prop where
  edited : t.graph.Edited u.graph id next
  registry : u.registry = t.registry
  journal : u.journal = t.journal

variable {t u : Workspace} {id : NodeId} {node next : Node} (alters : Alters id t node u)

include alters

theorem change_alters {change : Graph → Except Fault Graph}
    (made : ∃ later, change u.graph = .ok later) (yields : Yields (change u.graph) fun later => u.graph.Edited later id next) :
    Build.Gives (Build.change change) u fun _ v => Alters id t next v := by
  obtain ⟨later, done⟩ := made
  have edited := yields_ok _ later yields done
  exact ⟨(), { u with graph := later }, Build.runs_change.mpr ⟨later, done, rfl⟩,
    edited_trans alters.edited edited, alters.registry, alters.journal⟩

theorem trim_alters :
    Build.Gives (Build.change fun graph => graph.trimInputs id 0) u fun _ v => Alters id t { node with inputs := [] } v := by
  have read := alters.edited.here
  refine change_alters alters ?_ (u.graph.trim_inputs_yields id 0 node read)
  rw [trimInputs, (u.graph.node_eq_ok id node).mpr read]
  exact ⟨_, rfl⟩

theorem append_alters (input : NodeId) : Build.Gives (Build.change fun graph => graph.appendInput id input) u fun _ v =>
      Alters id t { node with inputs := node.inputs ++ [input] } v := by
  have read := alters.edited.here
  refine change_alters alters ?_ (u.graph.append_input_yields id input node read)
  rw [appendInput, (u.graph.node_eq_ok id node).mpr read]
  exact ⟨_, rfl⟩

theorem append_all_alters (inputs : List NodeId) :
    Build.Gives (inputs.forM fun input => Build.change fun graph => graph.appendInput id input) u fun _ v =>
      Alters id t { node with inputs := node.inputs ++ inputs } v := by
  induction inputs generalizing node u with
  | nil => exact ⟨(), u, rfl, by rw [append_nil]; exact alters⟩
  | cons input rest ih =>
    refine Build.gives_bind (fun _ => rest.forM fun input => Build.change fun graph => graph.appendInput id input) _ _
      (append_alters alters input) fun _ v first => ?_
    have later := ih first
    rwa [append_assoc, singleton_append] at later

theorem change_op_alters (op : Operator) :
    Build.Gives (Build.change fun graph => graph.changeOp id op) u fun _ v => Alters id t { node with op := op } v := by
  have read := alters.edited.here
  refine change_alters alters ?_ (u.graph.change_op_yields id op node read)
  rw [changeOp, (u.graph.node_eq_ok id node).mpr read]
  exact ⟨_, rfl⟩

omit alters

theorem rewrite_alters (read : t.graph.node? id = some node) (inputs : List NodeId) (site : CallSite) : Build.Gives (do
      Build.change fun graph => graph.trimInputs id 0
      inputs.forM fun input => Build.change fun graph => graph.appendInput id input
      Build.change fun graph => graph.changeOp id (.call site)
      return Reduction.changed id) t fun reduction u =>
        reduction = .changed id ∧ Alters id t { node with op := .call site, inputs := inputs } u := by
  have begun : Alters id t node t := ⟨t.graph.edited_self read, rfl, rfl⟩
  refine Build.gives_bind _ _ _ (trim_alters begun) fun _ u bare => ?_
  refine Build.gives_bind _ _ _ (append_all_alters bare inputs) fun _ v filled => ?_
  refine Build.gives_bind _ _ _ (change_op_alters filled (.call site)) fun _ w done => ?_
  exact ⟨_, w, rfl, rfl, done⟩

end

theorem call_counted (effect control : NodeId) (single : frameState.length ≤ 1) (short : values.length < UInt32.size)
    (counts : site.valueInputs = UInt32.ofNat values.length) (framed : site.frameState = !frameState.isEmpty) :
    (values ++ frameState ++ [effect, control]).length = (Operator.call site).layout.total ∧
      control ∈ (values ++ frameState ++ [effect, control]).drop (Operator.call site).layout.firstControl := by
  have width : site.valueInputs.toNat = values.length := by
    rw [counts]
    exact UInt32.toNat_ofNat_of_lt' short
  have state : site.frameState.toNat = frameState.length := by
    rw [framed]
    match frameState, single with
    | [], _ => rfl
    | [_], _ => rfl
  have first : (Operator.call site).layout.firstControl = values.length + frameState.length + 1 := by
    simp only [Operator.layout, InputLayout.firstControl, InputLayout.firstEffect, InputLayout.frameStateIndex, width, state,
      Bool.toNat_false, add_zero]
  constructor
  · rw [InputLayout.total, first]
    simp only [length_append, length_cons, length_nil, Operator.layout]
  · rw [first, mem_iff_getElem?]
    refine ⟨0, ?_⟩
    rw [getElem?_drop, append_assoc, getElem?_append_right (by omega), getElem?_append_right (by omega)]
    have place : values.length + frameState.length + 1 + 0 - values.length - frameState.length = 1 := by omega
    rw [place]
    rfl

theorem array_interface (kind : ElementsKind) (arity : UInt32) :
    (arrayBuiltin kind arity).interface = ⟨"ArrayConstructor", 3, true⟩ := by
  rw [arrayBuiltin]
  split
  · rfl
  · split <;> rfl

section

theorem subset_append_more {all first last : List NodeId} (more : List NodeId) (sub : all ⊆ first ++ last) :
    all ⊆ first ++ (more ++ last) :=
  Subset.trans sub (append_subset.mpr
    ⟨subset_append_left _ _, Subset.trans (subset_append_right more last) (subset_append_right _ _)⟩)

-- Constants and descriptors may have been added since `s`. What is known of them hangs on the table of constants; one that is
-- wrong may even list the creation, which then gets another type.
structure Prepared (trusted : Prop) (s : Workspace) (id : NodeId) (node : Node) (known : List (NodeId × Constant)) (t : Workspace) :
    Prop where
  adds : s.graph.Adds t.graph []
  here : ∃ type, t.graph.node? id = some { node with type := type }
  same : trusted → t.graph.node? id = some node
  interned : trusted → t.graph.Interned
  journal : t.journal = s.journal
  means : ∀ entry ∈ known, t.graph.Means trusted entry.1 entry.2

-- Inputs that the creation had, or constants.
def Turns (s : Workspace) (id : NodeId) (node : Node) (site : CallSite) (inputs : List NodeId) (t : Workspace) : Prop :=
  ∃ middle type, s.graph.Adds middle [] ∧ middle.node? id = some { node with type := type } ∧
    middle.Edited t.graph id { node with type := type, op := .call site, inputs := inputs } ∧
    ∀ input ∈ inputs, input ∈ node.inputs ∨ middle.HasLive input

structure Becomes (trusted : Prop) (s : Workspace) (id : NodeId) (node : Node) (control : NodeId) (reduction : Reduction)
    (t : Workspace) : Prop where
  changed : reduction = .changed id
  journal : t.journal = s.journal
  called : ∃ site callee values frameState effect, Turns s id node site (values ++ frameState ++ [effect, control]) t ∧
    site.valueInputs = UInt32.ofNat values.length ∧ values.length < UInt32.size ∧ (site.frameState = !frameState.isEmpty) ∧
    frameState.length ≤ 1 ∧
    (trusted → ∃ arguments, CallAgrees s t id node site callee arguments ∧ CallTarget t.graph arguments)

variable {trusted : Prop} {s t : Workspace} {id : NodeId} {node : Node} {known : List (NodeId × Constant)} {request : Creation}
  {given : List NodeId} {context : NodeId} {frameState : Option NodeId} {effect control : NodeId}
  (parts : node.Creates request given context frameState effect control)

include parts

variable (prepared : Prepared trusted s id node known t)

include prepared

theorem constant_prepared {value : Constant} {α : Type} {next : NodeId → Build α}
    {good : α → Workspace → Prop} (goes : ∀ made u, Prepared trusted s id node ((made, value) :: known) u →
      u.registry = t.registry → Build.Gives (next made) u good) : Build.Gives (Build.constant value >>= next) t good := by
  obtain ⟨made, u, run, _⟩ := ends_total (@ends_constant True t value)
  obtain ⟨added, lives, denotes⟩ := Build.constant_adds run
  obtain ⟨type, read⟩ := prepared.here
  have here := added.grown.kept id _ read
  refine Build.gives_after run (goes made u ⟨adds_trans prepared.adds added, here, fun holds => ?_,
    fun holds => added.interned (prepared.interned holds), ?_, forall_mem_cons.mpr ⟨⟨lives, fun holds =>
    denotes (prepared.interned holds)⟩, fun entry member => means_extends added.grown (prepared.means entry member)⟩⟩ ?_)
  · -- The constant is no creation, so that the creation is not the node that gets a type.
    have kept := t.graph.constant_keeps value (prepared.same holds)
    have apart : id ≠ made := by
      rintro rfl
      obtain ⟨other, there, carries⟩ := denotes (prepared.interned holds)
      obtain ⟨_, again⟩ := added.grown.kept id node (prepared.same holds)
      rw [Option.some.inj (there.1.symm.trans again)] at carries
      cases carries.symm.trans parts.op
    obtain ⟨graph, done, rfl⟩ := Build.runs_edit.mp run
    obtain ⟨rfl, rfl⟩ := Prod.mk.inj (Except.ok.inj done)
    have retyped (type : ValueType) := (t.graph.constant value).2.node_modify (t.graph.constant value).1 id fun node =>
      { node with type := type }
    cases value with
    | int32 number | number number => exact (retyped _).trans ((if_neg apart).trans kept)
    | _ => exact kept
  · obtain ⟨graph, _, rfl⟩ := Build.runs_edit.mp run
    exact prepared.journal
  · obtain ⟨graph, _, rfl⟩ := Build.runs_edit.mp run
    rfl

omit parts in
theorem intern_prepared {callee : CallDescriptor} {α : Type}
    {next : DescriptorId → Build α} {good : α → Workspace → Prop} (goes : ∀ descriptor u, Prepared trusted s id node known u →
      u.registry.get descriptor = .ok callee → Build.Gives (next descriptor) u good) : Build.Gives (Build.intern callee >>= next) t good :=
  Build.gives_after rfl (goes (t.registry.intern callee).1 { t with registry := (t.registry.intern callee).2 }
    ⟨prepared.adds, prepared.here, prepared.same, prepared.interned, prepared.journal, prepared.means⟩
    (present_eq_ok.mpr (t.registry.intern_known callee)))

theorem become_agrees (read : s.graph.node? id = some node)
    {descriptor : DescriptorId} {callee : CallDescriptor} {values : List NodeId} (found : t.registry.get descriptor = .ok callee)
    (takes : callee.flags.needsContext) (framed : callee.flags.needsFrameState → frameState.isSome)
    (width : values.length + 1 = callee.inputCount) (short : values.length + 1 < UInt32.size)
    (results : callee.returnCount < UInt32.size) (sources : values ⊆ given ++ known.map Prod.fst)
    (target : ∀ graph : Graph, (∀ entry ∈ known, graph.Denotes entry.1 entry.2) → CallTarget graph values) :
    Build.Gives (become id descriptor values) t (Becomes trusted s id node control) := by
  have here := prepared.here
  rw [become]
  refine Build.gives_after (runs_get.mpr ⟨rfl, rfl⟩) ?_
  refine Build.gives_after (Build.of_except_done found) ?_
  refine Build.gives_after (Build.query_done (parts.context_read here)) ?_
  refine Build.gives_after (Build.query_done (parts.state_read here)) ?_
  refine Build.gives_after (Build.query_done (parts.effect_read here)) ?_
  refine Build.gives_after (Build.query_done (parts.control_read here)) ?_
  dsimp only
  rw [if_pos takes, Option.toList_some]
  refine Build.gives_after (show Build.checks t = .ok t.journal.checks t from rfl) ?_
  have length : (values ++ [context]).length = values.length + 1 := length_append
  have even : (t.journal.checks && (values ++ [context]).length != callee.inputCount) = false := by simp [width]
  rw [if_neg (by rw [even]; exact Bool.false_ne_true)]
  obtain ⟨states, same⟩ : ∃ states, states = if callee.flags.needsFrameState = true then frameState.toList else [] := ⟨_, rfl⟩
  have state : (!states.isEmpty) = callee.flags.needsFrameState ∧ states.length ≤ 1 ∧ states ⊆ frameState.toList := by
    rw [same]
    cases needs : callee.flags.needsFrameState with
    | false => exact ⟨rfl, Nat.zero_le 1, nil_subset _⟩
    | true =>
      obtain ⟨input, rfl⟩ := Option.isSome_iff_exists.mp (framed needs)
      exact ⟨rfl, le_refl 1, Subset.refl _⟩
  rw [← same, state.1]
  let site : CallSite := ⟨descriptor, UInt32.ofNat (values ++ [context]).length, UInt32.ofNat callee.returnCount,
    callee.flags.needsFrameState, callee.properties⟩
  obtain ⟨type, there⟩ := here
  obtain ⟨_, u, done, rfl, alters⟩ := rewrite_alters there (values ++ [context] ++ states ++ [effect, control]) site
  refine ⟨_, u, done, rfl, alters.journal.trans prepared.journal, site, callee, values ++ [context], states, effect,
    ⟨t.graph, type, prepared.adds, there, alters.edited, ?_⟩, rfl, length ▸ short, state.1.symm, state.2.1, fun holds => ?_⟩
  · rw [parts.inputs]
    intro input member
    simp only [mem_append, mem_cons, not_mem_nil, or_false] at member ⊢
    rcases member with ((value | rfl) | listed) | rfl | rfl
    · rcases mem_append.mp (sources value) with own | added
      · exact .inl (.inl (.inl (.inl own)))
      · obtain ⟨entry, known, rfl⟩ := mem_map.mp added
        exact .inr (prepared.means entry known).1
    · exact .inl (.inl (.inl (.inr rfl)))
    · exact .inl (.inl (.inr (state.2.2 listed)))
    · exact .inl (.inr (.inl rfl))
    · exact .inl (.inr (.inr rfl))
  obtain rfl : type = node.type := congrArg Node.type (Option.some.inj (there.symm.trans (prepared.same holds)))
  refine ⟨values, ?_, target u.graph fun entry member => ?_⟩
  · exact
      { known := alters.registry ▸ found
        counted := by
          show (UInt32.ofNat (values ++ [context]).length).toNat = _
          rw [length, UInt32.toNat_ofNat_of_lt' short, width]
        returns := UInt32.toNat_ofNat_of_lt' results
        frameState := rfl
        properties := rfl
        width := width
        here := ⟨context, frameState, effect, control, parts.context_read ⟨_, read⟩, parts.state_read ⟨_, read⟩,
          parts.effect_read ⟨_, read⟩, parts.control_read ⟨_, read⟩, framed, same ▸ alters.edited.here⟩
        elsewhere := fun other apart =>
          (t.graph.inputs_of_congr (alters.edited.elsewhere other apart)).trans (adds_inputs_of prepared.adds other) }
  -- No constant stands where the creation was.
  obtain ⟨other, live, carries⟩ := (prepared.means entry member).2 holds
  have apart : entry.1 ≠ id := by
    intro same
    rw [same] at live
    rw [Option.some.inj (live.1.symm.trans there)] at carries
    cases carries.symm.trans parts.op
  exact ⟨other, ⟨(alters.edited.elsewhere entry.1 apart).trans live.1, live.2⟩, carries⟩

omit parts in
omit prepared in
theorem stub_described (interface : StubInterface) (stack : UInt32) (flags : CallFlags) (properties : Properties)
    (contextual : interface.hasContext) (short : interface.registers.toNat + stack.toNat + 1 < UInt32.size) :
    ∃ callee, CallDescriptor.stub interface stack flags properties 1 = .ok callee ∧
      callee.inputCount = interface.registers.toNat + stack.toNat + 2 ∧ callee.returnCount = 1 ∧
      callee.flags = { flags with needsContext := true } := by
  have first : (interface.registers + stack).toNat = interface.registers.toNat + stack.toNat := by
    rw [UInt32.toNat_add]
    exact Nat.mod_eq_of_lt (Nat.lt_of_succ_lt short)
  have total : (interface.registers + stack + 1).toNat = interface.registers.toNat + stack.toNat + 1 := by
    rw [UInt32.toNat_add, first]
    exact Nat.mod_eq_of_lt short
  refine ⟨_, bind_eq_ok.mpr ⟨_, checkedAdd_eq_ok.mpr first, bind_eq_ok.mpr
    ⟨interface.registers + stack + 1, checkedAdd_eq_ok.mpr ?_, rfl⟩⟩, ?_, ?_, ?_⟩
  · rw [if_pos contextual, total, first]
    rfl
  · rw [CallDescriptor.inputCount, CallDescriptor.parameterCount, length_replicate, total]
    omega
  · rw [CallDescriptor.returnCount, length_replicate]
  · rw [contextual]

theorem runtime_agrees (read : s.graph.node? id = some node) (function : RuntimeFunction)
    (arguments : List NodeId) (few : arguments.length ≤ 4) (sources : arguments ⊆ given ++ known.map Prod.fst)
    (declared : ∀ arity, function.arity? = some arity → arity.toNat = arguments.length) :
    Build.Gives (runtime id function arguments) t (Becomes trusted s id node control) := by
  have counted : (UInt32.ofNat arguments.length).toNat = arguments.length :=
    UInt32.toNat_ofNat_of_lt' (lt_of_le_of_lt few (by decide))
  rw [runtime]
  extract_lets called
  have rest : Build.Gives (called ()) t (Becomes trusted s id node control) := by
    dsimp only [called]
    refine Build.gives_after (Build.query_done (parts.state_read prepared.here)) ?_
    refine Build.gives_after (Build.query_done (Node.Creates.op_read prepared.here)) ?_
    refine intern_prepared prepared fun descriptor u later described => ?_
    refine constant_prepared parts later fun entry v first same => ?_
    refine constant_prepared parts first fun routine w second again => ?_
    refine constant_prepared parts second fun count x third still => ?_
    refine become_agrees parts third read (still ▸ again ▸ same ▸ described) rfl (fun needs => needs) ?_ ?_ ?_ ?_ ?_
    · simp only [CallDescriptor.inputCount, CallDescriptor.parameterCount, CallDescriptor.runtime, counted, cons_append,
        length_cons, length_append, length_replicate, length_nil]
      omega
    · simp only [cons_append, length_cons, length_append, length_nil]
      have bound : 8 < UInt32.size := by decide
      omega
    · show 1 < UInt32.size
      decide
    · simpa using subset_append_more [count, routine, entry] sources
    · intro graph denote
      exact .runtime function arguments entry routine count (Int32.ofNat arguments.length) (denote (entry, _) (by simp))
        (denote (routine, _) (by simp)) (denote (count, _) (by simp)) (Int32.toInt_ofNat_of_lt (by omega)) declared
  refine Build.gives_after (show Build.checks t = .ok t.journal.checks t from rfl) ?_
  split
  · split
    · rename_i arity found
      rw [if_neg (by simp [declared arity found])]
      exact rest
    · exact rest
  · exact rest

theorem builtin_agrees (read : s.graph.node? id = some node) (code : Builtin)
    (arguments : List NodeId) (few : arguments.length ≤ 4) (sources : arguments ⊆ given ++ known.map Prod.fst) (plain : ∀ results, code ≠ .runtimeEntry results)
    (contextual : code.interface.hasContext) (registers : code.interface.registers.toNat = arguments.length) :
    Build.Gives (builtin id code arguments) t (Becomes trusted s id node control) := by
  obtain ⟨callee, described, inputs, returns, flags⟩ := stub_described code.interface 0 {} .none contextual (by
    rw [registers]
    exact lt_of_le_of_lt (Nat.add_le_add_right few 1) (by decide))
  rw [builtin]
  refine Build.gives_after (Build.of_except_done described) ?_
  refine intern_prepared prepared fun descriptor u later interned => ?_
  refine constant_prepared parts later fun named v made same => ?_
  refine become_agrees parts made read (same ▸ interned) (by rw [flags]) (by rw [flags]; rintro ⟨⟩) ?_ ?_ ?_ ?_ ?_
  · rw [inputs, registers, length_cons]
    rfl
  · rw [length_cons]
    exact lt_of_le_of_lt (Nat.add_le_add_right (Nat.add_le_add_right few 1) 1) (by decide)
  · rw [returns]
    decide
  · simpa using subset_append_more [named] sources
  · intro graph denote
    exact .stub code arguments named plain (denote (named, _) (by simp))

omit prepared

section

variable (begun : Prepared trusted s id node [] s) (here : s.graph.node? id = some node)

include begun here

theorem array_agrees (heap : Snapshot) {arity : UInt32} (site : Option ObjectRef) (asked : request = .array arity site)
    (short : arity.toNat + 6 < UInt32.size) : Build.Gives (array heap id arity site) s (Becomes trusted s id node control) := by
  have counted : given.length = arity.toNat + 2 := by
    rw [parts.counted, asked]
    exact add_comm 2 _
  have framed : frameState.isSome := by rw [parts.framed, asked]; rfl
  obtain ⟨target, there⟩ : ∃ target, given[0]? = some target := ⟨_, getElem?_eq_getElem (by omega)⟩
  unfold array
  extract_lets kind code
  have interface : code.interface = ⟨"ArrayConstructor", 3, true⟩ := array_interface kind arity
  have stacked : (arity + 1).toNat = arity.toNat + 1 := by
    rw [UInt32.toNat_add]
    exact Nat.mod_eq_of_lt (by show arity.toNat + 1 < UInt32.size; omega)
  have plain : ∀ results, code ≠ .runtimeEntry results := by
    intro results same
    rw [same] at interface
    exact Bool.false_ne_true (congrArg StubInterface.hasContext interface)
  obtain ⟨callee, described, inputs, returns, flags⟩ := stub_described code.interface (arity + 1) { needsFrameState := true }
    node.op.properties (by rw [interface]) (by
      rw [interface, stacked]
      show 3 + (arity.toNat + 1) + 1 < UInt32.size
      omega)
  have width : callee.inputCount = arity.toNat + 6 := by
    rw [inputs, interface, stacked]
    show 3 + (arity.toNat + 1) + 2 = arity.toNat + 6
    omega
  refine Build.gives_after (Build.query_done (Node.Creates.op_read ⟨_, here⟩)) ?_
  refine Build.gives_after (Build.of_except_done (checkedAdd_eq_ok.mpr stacked)) ?_
  refine Build.gives_after (Build.of_except_done described) ?_
  refine intern_prepared begun fun descriptor t interned found => ?_
  refine Build.gives_after (Build.query_done (parts.value_read interned.here 0 target there)) ?_
  refine Build.gives_after (Build.query_done (parts.values_read interned.here)) ?_
  refine Build.gives_after (Build.of_except_done ((require_eq_ok ()).mpr (by simp [counted]))) ?_
  refine constant_prepared parts interned fun named u first sameFirst => ?_
  refine constant_prepared parts first fun place v second sameSecond => ?_
  refine constant_prepared parts second fun count w third sameThird => ?_
  refine constant_prepared parts third fun receiver x fourth sameFourth => ?_
  have length : ([named, target, place, count, receiver] ++ given.drop 2).length = arity.toNat + 5 := by
    rw [length_append, length_drop, counted]
    exact add_comm 5 _
  refine become_agrees parts fourth here (sameFourth ▸ sameThird ▸ sameSecond ▸ sameFirst ▸ found)
    (by rw [flags]) (fun _ => framed) ?_ ?_ ?_ ?_ ?_
  · rw [length, width]
  · rw [length]
    exact short
  · rw [returns]
    decide
  · simpa [mem_of_getElem? there] using Subset.trans (drop_subset 2 given) (subset_append_left _ _)
  · intro graph denote
    exact .stub code _ named plain (denote (named, _) (by simp))

theorem literal_agrees {function : RuntimeFunction} (site : LiteralSite) (one : given.length = 1)
    (declared : function.arity? = some 4) : Build.Gives (literal id function site) s (Becomes trusted s id node control) := by
  obtain ⟨closure, rfl⟩ := length_eq_one_iff.mp one
  rw [literal]
  refine Build.gives_after (Build.query_done (parts.value_read ⟨_, here⟩ 0 closure rfl)) ?_
  refine constant_prepared parts begun fun slot t first _ => ?_
  refine constant_prepared parts first fun constant u second _ => ?_
  refine constant_prepared parts second fun flags v third _ => ?_
  refine runtime_agrees parts third here function _ (le_refl 4) (by simp) fun arity found => ?_
  cases declared.symm.trans found
  rfl

theorem function_context_agrees (slots : UInt32) (scope : Scope) (one : given.length = 1) :
    Build.Gives (functionContext id slots scope) s (Becomes trusted s id node control) := by
  obtain ⟨closure, rfl⟩ := length_eq_one_iff.mp one
  rw [functionContext]
  refine Build.gives_after (Build.query_done (parts.value_read ⟨_, here⟩ 0 closure rfl)) ?_
  split
  · refine constant_prepared parts begun fun count t first _ => ?_
    exact builtin_agrees parts first here (.fastNewFunctionContext scope) [closure, count] (by simp) (by simp) (by rintro _ ⟨⟩) rfl rfl
  · refine constant_prepared parts begun fun kind t first _ => ?_
    refine runtime_agrees parts first here .newFunctionContext [closure, kind] (by simp) (by simp) fun arity found => ?_
    cases found
    rfl

theorem reduce_creation_agrees (heap : Snapshot)
    (short : ∀ arity site, request = .array arity site → arity.toNat + 6 < UInt32.size) :
    Build.Gives (reduceCreation heap id given request) s (Becomes trusted s id node control) := by
  -- A routine that is called with as many constants and inputs as it declares.
  have calls : ∀ {known : List (NodeId × Constant)} {t : Workspace} (_ : Prepared trusted s id node known t) (function : RuntimeFunction)
      (arguments : List NodeId) (count : UInt32), function.arity? = some count → count.toNat = arguments.length →
      count.toNat ≤ 4 → arguments ⊆ given ++ known.map Prod.fst → Build.Gives (runtime id function arguments) t (Becomes trusted s id node control) := by
    intro known t prepared function arguments count declared same few sources
    refine runtime_agrees parts prepared here function arguments (same ▸ few) sources fun arity found => ?_
    cases declared.symm.trans found
    exact same
  cases request with
  | object | iterResult | keyValueArray | generator =>
    obtain ⟨first, second, rfl⟩ := length_eq_two.mp parts.counted
    exact calls begun _ _ 2 rfl rfl (by decide) (by simp)
  | arguments kind =>
    obtain ⟨callee, rfl⟩ := length_eq_one_iff.mp parts.counted
    refine Build.gives_after (Build.query_done (parts.value_read ⟨_, here⟩ 0 callee rfl)) ?_
    refine builtin_agrees parts begun here (argumentsBuiltin kind) [callee] (by simp) (by simp) ?_ ?_ ?_
    · cases kind <;> rintro _ ⟨⟩
    · cases kind <;> rfl
    · cases kind <;> rfl
  | array arity site => exact array_agrees parts begun here heap site rfl (short arity site rfl)
  | literalArray site | literalObject site | literalRegExp site => exact literal_agrees parts begun here site parts.counted rfl
  | emptyLiteralArray slot =>
    obtain ⟨closure, rfl⟩ := length_eq_one_iff.mp parts.counted
    refine Build.gives_after (Build.query_done (parts.value_read ⟨_, here⟩ 0 closure rfl)) ?_
    refine constant_prepared parts begun fun number t made _ => ?_
    exact calls made _ _ 2 rfl rfl (by decide) (by simp)
  | emptyLiteralObject => exact calls begun _ _ 0 rfl rfl (by decide) (by simp)
  | functionContext slots scope => exact function_context_agrees parts begun here slots scope parts.counted
  | withContext scopeInfo =>
    obtain ⟨object, closure, rfl⟩ := length_eq_two.mp parts.counted
    refine constant_prepared parts begun fun info t made _ => ?_
    refine Build.gives_after (Build.of_except_done rfl) ?_
    refine Build.gives_after (Build.of_except_done rfl) ?_
    exact calls made _ _ 3 rfl rfl (by decide) (by simp)
  | catchContext name scopeInfo =>
    obtain ⟨exception, closure, rfl⟩ := length_eq_two.mp parts.counted
    refine Build.gives_after (Build.query_done (parts.value_read ⟨_, here⟩ 0 exception rfl)) ?_
    refine Build.gives_after (Build.query_done (parts.value_read ⟨_, here⟩ 1 closure rfl)) ?_
    refine constant_prepared parts begun fun nameId t first _ => ?_
    refine constant_prepared parts first fun info u second _ => ?_
    exact calls second _ _ 4 rfl rfl (by decide) (by simp)
  | blockContext scopeInfo =>
    obtain ⟨closure, rfl⟩ := length_eq_one_iff.mp parts.counted
    refine constant_prepared parts begun fun info t made _ => ?_
    refine Build.gives_after (Build.of_except_done rfl) ?_
    exact calls made _ _ 2 rfl rfl (by decide) (by simp)

end

end

-- The parameters of the constructor are counted by a word, so that only one arity is left whose call has too many values.
theorem array_stub_yields (kind : ElementsKind) {arity stack : UInt32} (flags : CallFlags) (properties : Properties)
    (counted : stack.toNat = arity.toNat + 1) :
    Yields (CallDescriptor.stub (arrayBuiltin kind arity).interface stack flags properties 1) fun _ =>
      arity.toNat + 5 < UInt32.size := by
  rw [array_interface, CallDescriptor.stub]
  refine yields_bind (fun sum : UInt32 => sum.toNat = 3 + stack.toNat) (yields_checked_add fun _ => id) fun sum first => ?_
  refine yields_bind (fun total : UInt32 => total.toNat = sum.toNat + 1) (yields_checked_add fun _ => id)
    fun total second => ?_
  refine yields_bind (fun _ => True) (yields_require fun _ => trivial) fun _ _ => yields_pure ?_
  have bound := total.toNat_lt_size
  omega

section

variable {trusted : Prop} {request : Creation} {given : List NodeId} {context : NodeId} {frameState : Option NodeId} {effect : NodeId}

theorem becomes_succeeds (sound : s.graph.Lowerable rank) (parts : node.Creates request given context frameState effect control)
    (live : s.graph.Live id node) {reduction : Reduction} {t : Workspace} (becomes : Becomes trusted s id node control reduction t) :
    Succeeds rank s id reduction t := by
  obtain ⟨rfl, journal, site, _, values, states, first, ⟨middle, type, adds, there, edited, sources⟩, counts, short, framed, single, _⟩ :=
    becomes
  have expanded := adds_expanded sound adds (by simp)
  obtain ⟨counted, follows⟩ := call_counted first control single short counts framed
  have here : Creates middle id control { node with type := type } :=
    ⟨⟨there, live.2⟩, (parts.creates live).creates, (parts.creates live).control⟩
  refine ⟨by rw [journal], lowerable_call expanded.sound here rfl edited live.2 counted (fun input member => ?_) follows,
    fun other => ?_⟩
  · rcases sources input member with own | added
    · exact expanded_live expanded ((sound.nodes id node live).inputs input own)
    · exact added
  · rw [pending_edited edited (.inr rfl), pending_expanded expanded]

-- Too many values for a descriptor are an overflow, and those that only just fit are too many for the node.
theorem reduce_creation_yields (heap : Snapshot) (parts : node.Creates request given context frameState effect control)
    (here : s.graph.node? id = some node) (width : node.inputs.length ≠ UInt32.size) :
    Build.Yields (reduceCreation heap id given request) s (Becomes False s id node control) := by
  have begun : Prepared False s id node [] s := ⟨s.graph.adds_refl, ⟨_, here⟩, False.elim, False.elim, rfl, by simp⟩
  by_cases short : ∀ arity site, request = .array arity site → arity.toNat + 6 < UInt32.size
  · exact Build.gives_yields s (reduce_creation_agrees parts begun here heap short)
  simp only [not_forall, not_lt] at short
  obtain ⟨arity, site, rfl, long⟩ := short
  have counted : node.inputs.length = arity.toNat + 6 := by
    obtain ⟨state, framed⟩ := Option.isSome_iff_exists.mp parts.framed
    have count : given.length = 2 + arity.toNat := parts.counted
    simp [parts.inputs, framed, count]
    omega
  show Build.Yields (array heap id arity site) s _
  unfold array
  extract_lets kind code
  refine Build.yields_query_then (op_panics id) fun op _ => ?_
  refine Build.yields_except_then s (yields_checked_add fun _ _ => trivial) fun stack sum => ?_
  have described := array_stub_yields kind { needsFrameState := true } op.properties (checkedAdd_eq_ok.mp sum)
  refine Build.yields_except_then s (yields_mono described fun _ _ => trivial) fun _ stubbed => ?_
  have := yields_ok _ _ described stubbed
  omega

end

-- Unlike the expansion, the call never gives up on a creation.
theorem reduce_yields (heap : Snapshot) (sound : Lowerable rank s.graph) (lives : s.graph.HasLive id) :
    Build.Yields (reduce heap id) s fun reduction t => Reduces rank s id reduction t ∧
      (reduction = .unchanged → s.graph.pending id = false) := by
  obtain ⟨node, live⟩ := lives
  have op : s.graph.op id = .ok node.op := (s.graph.op_eq_ok id node.op).mpr ⟨node, live.1, rfl⟩
  refine Build.yields_query_then (op_panics id) fun _ carried => ?_
  cases Except.ok.inj (op.symm.trans carried)
  split
  · rename_i request creation
    have ready := sound.nodes id node live
    obtain ⟨given, context, frameState, effect, control, parts⟩ := node.creates_parts live.2 creation ready.fits ready.counted
    have waits := (pending_iff s.graph id).mpr ⟨node, live, (parts.creates live).creates⟩
    refine Build.yields_query_then (value_inputs_panics id) fun values read => ?_
    cases (parts.values_read ⟨_, live.1⟩).symm.trans read
    refine Build.yields_mono (reduce_creation_yields heap parts live.1 (ready.width (parts.creates live).creates)) ?_
    intro reduction t becomes
    refine ⟨.inr ⟨waits, becomes_succeeds sound parts live becomes⟩, ?_⟩
    rintro rfl
    cases becomes.changed
  · rename_i other
    refine Build.yields_pure ⟨.inl ⟨rfl, rfl, rfl⟩, fun _ => ?_⟩
    rw [Bool.eq_false_iff, Ne, pending_iff]
    rintro ⟨again, liveAgain, creates⟩
    obtain rfl := live_unique s.graph live liveAgain
    cases shape : node.op with
    | create request => exact other request shape
    | _ => rw [shape] at creates; cases creates

end CreationCall

end SeaOfNodes
