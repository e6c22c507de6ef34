import SeaOfNodes.Creation.Plan
import SeaOfNodes.Proofs.Graph.Built

/-! The nodes that carrying out a plan adds: action by action, each region on one chain of effects. -/

namespace SeaOfNodes

open List Build SeaOfNodes.Graph

variable {last effect : NodeId} {operand : Operand} {store : Store} {stores : List Store} {region : Region} {action : Action} {plan : Plan} {limit : UInt32}
  {id object : NodeId} {op : Operator} {inputs ids : List NodeId} {value : Constant} {type : ValueType}
  {generation : Generation} {before after : Plan.Progress}

namespace Graph

variable {graph : Graph}

structure Extends (old new : Graph) : Prop where
  size : old.size ≤ new.size
  kept : ∀ id node, old.node? id = some node → ∃ type, new.node? id = some { node with type := type }
  mirrored : old.Mirrored → new.Mirrored

def Interned (graph : Graph) : Prop :=
  ∀ value id, graph.constants.lookup value = some id →
    id < graph.size ∧ ∀ node, graph.Live id node → node.op = .constant value

def HasLive (graph : Graph) (id : NodeId) : Prop := ∃ node, graph.Live id node

def Has (graph : Graph) (id : NodeId) (op : Operator) (inputs : List NodeId) : Prop :=
  ∃ node, graph.Live id node ∧ node.op = op ∧ node.inputs = inputs ∧ op.fits = true ∧ inputs.length = op.layout.total

def Denotes (graph : Graph) (id : NodeId) (value : Constant) : Prop := ∃ node, graph.Live id node ∧ node.op = .constant value

-- Constants are only known by the table of constants, so that what is said of them hangs on its being right.
def Means (trusted : Prop) (graph : Graph) (id : NodeId) (value : Constant) : Prop :=
  graph.HasLive id ∧ (trusted → graph.Denotes id value)

theorem is_live_iff (graph : Graph) (id : NodeId) : graph.isLive id ↔ graph.HasLive id := by
  rw [isLive]
  cases read : graph.node? id with
  | none | some node => simp [HasLive, Live, read]

section

variable {old new : Graph}

theorem extends_refl (graph : Graph) : Extends graph graph := ⟨le_rfl, fun _ node read => ⟨node.type, read⟩, id⟩

theorem extends_trans {last : Graph} (first : Extends old new) (second : Extends new last) : Extends old last := by
  refine ⟨first.size.trans second.size, fun id node read => ?_, fun mirrored => second.mirrored (first.mirrored mirrored)⟩
  obtain ⟨_, there⟩ := first.kept id node read
  obtain ⟨type, final⟩ := second.kept id _ there
  exact ⟨type, final⟩

theorem extends_push (graph : Graph) (node : Node) : Extends graph (graph.push node).2 := by
  refine ⟨by rw [size_push]; exact Nat.le_succ _, fun id former read => ⟨former.type, ?_⟩, graph.push_mirrored node⟩
  rw [node_push, if_neg (ne_of_lt (graph.node_lt read)), read]

theorem extends_retype (graph : Graph) (id : NodeId) (type : ValueType) :
    Extends graph (graph.modifyNode id fun node => { node with type := type }) := by
  refine ⟨le_of_eq (graph.size_modify id _).symm, fun other node read => ?_, fun mirrored =>
    graph.modify_mirrored mirrored id fun _ => rfl⟩
  rw [node_modify]
  split
  · rename_i same
    subst same
    exact ⟨type, by rw [read]; rfl⟩
  · exact ⟨node.type, read⟩

variable (grown : Extends old new)

include grown

-- A node that was there before is still the same.
theorem extends_back {node : Node} (read : new.node? id = some node) (before : id < old.size) :
    ∃ former, old.node? id = some former ∧ node.op = former.op ∧ node.dead = former.dead := by
  obtain ⟨former, there⟩ := old.node_of_lt id before
  obtain ⟨type, again⟩ := grown.kept id former there
  cases read.symm.trans again
  exact ⟨former, there, rfl, rfl⟩

theorem has_extends (has : old.Has id op inputs) : new.Has id op inputs := by
  obtain ⟨node, live, rfl, rfl, shape⟩ := has
  obtain ⟨type, read⟩ := grown.kept id node live.1
  exact ⟨_, ⟨read, live.2⟩, rfl, rfl, shape⟩

theorem live_extends {id : NodeId} (lives : old.HasLive id) : new.HasLive id := by
  obtain ⟨node, live⟩ := lives
  obtain ⟨type, read⟩ := grown.kept id node live.1
  exact ⟨_, read, live.2⟩

theorem denotes_extends (denotes : old.Denotes id value) : new.Denotes id value := by
  obtain ⟨node, live, op⟩ := denotes
  obtain ⟨type, read⟩ := grown.kept id node live.1
  exact ⟨_, ⟨read, live.2⟩, op⟩

theorem means_extends {trusted : Prop} (means : old.Means trusted id value) : new.Means trusted id value :=
  ⟨live_extends grown means.1, fun holds => denotes_extends grown (means.2 holds)⟩

theorem interned_extends (same : new.constants = old.constants) (interned : old.Interned) : new.Interned := by
  intro value id found
  rw [same] at found
  obtain ⟨inside, carries⟩ := interned value id found
  refine ⟨inside.trans_le grown.size, fun node live => ?_⟩
  obtain ⟨former, read, op, dead⟩ := extends_back grown live.1 inside
  rw [op]
  exact carries former ⟨read, dead ▸ live.2⟩

end

structure Adds (old new : Graph) (made : List NodeId) : Prop where
  grown : Extends old new
  interned : old.Interned → new.Interned
  sorted : made.Pairwise (· < ·)
  inside : ∀ id ∈ made, old.size ≤ id ∧ id < new.size
  others : ∀ id node, old.size ≤ id → new.node? id = some node → id ∈ made ∨ ∃ value, node.op = .constant value ∧ node.inputs = []

theorem adds_refl : Adds graph graph [] where
  grown := extends_refl graph
  interned interned := interned
  sorted := .nil
  inside := by simp
  others id node late read := absurd (graph.node_lt read) (Nat.not_lt_of_le late)

theorem adds_trans {old middle new : Graph} {first second : List NodeId} (begins : Adds old middle first)
    (goes : Adds middle new second) : Adds old new (first ++ second) where
  grown := extends_trans begins.grown goes.grown
  interned interned := goes.interned (begins.interned interned)
  sorted := pairwise_append.mpr ⟨begins.sorted, goes.sorted, fun early member late later =>
    lt_of_lt_of_le (begins.inside early member).2 (goes.inside late later).1⟩
  inside id member := by
    rcases mem_append.mp member with early | late
    · exact ⟨(begins.inside id early).1, lt_of_lt_of_le (begins.inside id early).2 goes.grown.size⟩
    · exact ⟨le_trans begins.grown.size (goes.inside id late).1, (goes.inside id late).2⟩
  others id node late read := by
    by_cases before : id < middle.size
    · obtain ⟨former, there⟩ := middle.node_of_lt id before
      obtain ⟨type, again⟩ := goes.grown.kept id former there
      cases read.symm.trans again
      rw [mem_append]
      exact (begins.others id former late there).imp_left .inl
    · rw [mem_append]
      exact (goes.others id node (Nat.le_of_not_lt before) read).imp_left .inr

theorem adds_push (graph : Graph) (node : Node) : Adds graph (graph.push node).2 [graph.size] where
  grown := graph.extends_push node
  interned := interned_extends (graph.extends_push node) (graph.constants_push node)
  sorted := pairwise_singleton _ _
  inside id member := by
    rw [mem_singleton.mp member, size_push]
    exact ⟨le_rfl, Nat.lt_succ_self _⟩
  others id found late read := by
    have inside := node_lt _ read
    rw [size_push] at inside
    exact .inl (mem_singleton.mpr (le_antisymm (Nat.le_of_lt_succ inside) late))

theorem adds_retype (graph : Graph) (id : NodeId) (type : ValueType) :
    Adds graph (graph.modifyNode id fun node => { node with type := type }) [] where
  grown := graph.extends_retype id type
  interned := interned_extends (graph.extends_retype id type) rfl
  sorted := .nil
  inside := by simp
  others other node late read := by
    have inside := node_lt _ read
    rw [size_modify] at inside
    exact absurd inside (Nat.not_lt_of_le late)

theorem lookup_filter_ne {entries : List (Constant × NodeId)} {other : Constant} (different : other ≠ value) :
    (entries.filter fun entry => entry.1 ≠ value).lookup other = entries.lookup other := by
  induction entries with
  | nil => rfl
  | cons entry rest ih =>
    obtain ⟨key, id⟩ := entry
    by_cases same : key = value
    · have apart : (other == key) = false := by simpa [same] using different
      rw [filter_cons_of_neg (by simp [same]), ih, lookup_cons, apart]
    · rw [filter_cons_of_pos (by simp [same]), lookup_cons, lookup_cons, ih]

theorem constant_new (missing : (graph.constants.lookup value).filter graph.isLive = none) :
    graph.constant value = (graph.size, { (graph.push { op := .constant value, inputs := [] }).2 with
      constants := (value, graph.size) :: graph.constants.filter fun entry => entry.1 ≠ value }) := by
  rw [constant, missing, ← graph.constants_push { op := .constant value, inputs := [] }]
  rfl

theorem constant_adds (graph : Graph) (value : Constant) :
    Adds graph (graph.constant value).2 [] ∧ (graph.constant value).2.HasLive (graph.constant value).1 ∧
      (graph.Interned → (graph.constant value).2.Denotes (graph.constant value).1 value) := by
  cases found : (graph.constants.lookup value).filter graph.isLive with
  | some id =>
    rw [constant, found]
    obtain ⟨listed, alive⟩ := Option.filter_eq_some_iff.mp found
    obtain ⟨node, live⟩ := (graph.is_live_iff id).mp alive
    exact ⟨graph.adds_refl, ⟨node, live⟩, fun interned => ⟨node, live, (interned value id listed).2 node live⟩⟩
  | none =>
    rw [constant_new found]
    let node : Node := { op := .constant value, inputs := [] }
    have pushed := graph.adds_push node
    have made : (graph.push node).2.node? graph.size = some node := by rw [node_push, if_pos rfl]
    refine ⟨⟨⟨pushed.grown.size, pushed.grown.kept, pushed.grown.mirrored⟩, ?_, .nil, by simp, ?_⟩, ⟨node, made, rfl⟩,
      fun _ => ⟨node, ⟨made, rfl⟩, rfl⟩⟩
    · intro interned other id listed
      rw [lookup_cons] at listed
      split at listed
      · rename_i same
        cases listed
        refine ⟨(pushed.inside graph.size (mem_singleton_self _)).2, fun next live => ?_⟩
        cases made.symm.trans live.1
        rw [beq_iff_eq.mp same]
      · rename_i different
        rw [lookup_filter_ne (by simpa using different)] at listed
        exact pushed.interned interned other id (by rw [constants_push]; exact listed)
    · intro id next late read
      rcases pushed.others id next late read with member | constant
      · right
        rw [mem_singleton.mp member] at read
        cases made.symm.trans read
        exact ⟨value, rfl, rfl⟩
      · exact .inr constant

theorem typed_constant_adds (graph : Graph) (value : Constant) (type : ValueType) :
    Adds graph (graph.typedConstant value type).2 [] ∧ (graph.typedConstant value type).2.HasLive (graph.typedConstant value type).1 ∧
      (graph.Interned → (graph.typedConstant value type).2.Denotes (graph.typedConstant value type).1 value) := by
  obtain ⟨added, lives, denotes⟩ := graph.constant_adds value
  have retyped := (graph.constant value).2.adds_retype (graph.constant value).1 type
  exact ⟨adds_trans added retyped, live_extends retyped.grown lives, fun interned => denotes_extends retyped.grown (denotes interned)⟩

end Graph

namespace Build

variable {s t : Workspace}

theorem constant_adds (run : constant value s = .ok id t) :
    Adds s.graph t.graph [] ∧ t.graph.HasLive id ∧ (s.graph.Interned → t.graph.Denotes id value) := by
  obtain ⟨graph, made, rfl⟩ := runs_edit.mp run
  have same := Except.ok.inj made
  obtain rfl := congrArg Prod.fst same
  obtain rfl := congrArg Prod.snd same
  cases value with
  | int32 number => exact s.graph.typed_constant_adds (.int32 number) _
  | number number => exact s.graph.typed_constant_adds (.number number) _
  | int64 number | float64 number | heap object | external reference | code builtin => exact s.graph.constant_adds _

theorem add_node_adds (run : addNode op inputs s = .ok id t) : Adds s.graph t.graph [id] ∧ t.graph.Has id op inputs := by
  obtain ⟨graph, made, rfl⟩ := runs_edit.mp run
  obtain ⟨fits, counted, pushed⟩ := s.graph.add_node_eq_ok.mp made
  obtain rfl := congrArg Prod.fst pushed
  obtain rfl := congrArg Prod.snd pushed
  exact ⟨s.graph.adds_push _, _, ⟨by rw [node_push, push_id, if_pos rfl], rfl⟩, rfl, rfl, fits, counted⟩

theorem add_typed_node_adds (run : addTypedNode op inputs type s = .ok id t) :
    Adds s.graph t.graph [id] ∧ t.graph.Has id op inputs := by
  obtain ⟨graph, made, rfl⟩ := runs_edit.mp run
  obtain ⟨⟨_, middle⟩, first, same⟩ := bind_eq_ok.mp made
  cases same
  obtain ⟨added, has⟩ := add_node_adds ((runs_edit (s := s)).mpr ⟨middle, first, rfl⟩)
  have retyped := middle.adds_retype id type
  exact ⟨adds_trans added retyped, has_extends retyped.grown has⟩

theorem report_graph {violation : Violation} {result : Unit} (run : report violation s = .ok result t) : t.graph = s.graph := by
  rw [(report_runs run).2]

end Build

structure RegionNodes where
  begins : NodeId
  bytes : NodeId
  object : NodeId
  stores : List NodeId

def RegionNodes.chain (nodes : RegionNodes) : List NodeId := nodes.begins :: nodes.object :: nodes.stores

section

variable (trusted : Prop) (graph : Graph) (results : Array NodeId) (control : NodeId)

def Operand.At (id : NodeId) : Operand → Prop
  | .node other => id = other
  | .constant value => graph.Means trusted id value
  | .made action => results[action]? = some id

def Store.At (generation : Generation) (object effect id : NodeId) : Store → Prop
  | .field access value => ∃ source, value.At trusted graph results source ∧
      graph.Has id (.storeField { access with barrier := Allocation.barrier generation access.barrier })
        [object, source, effect, control]
  | .element access index value => ∃ place source, graph.Means trusted place (.number (.ofUInt32 index)) ∧
      value.At trusted graph results source ∧
      graph.Has id (.storeElement { access with barrier := Allocation.barrier generation access.barrier })
        [object, place, source, effect, control]
  | .misplaced _ => False

def StoresAt (generation : Generation) (object : NodeId) : NodeId → List Store → List NodeId → NodeId → Prop
  | effect, [], [], last => effect = last
  | effect, store :: rest, id :: ids, last =>
    store.At trusted graph results control generation object effect id ∧ StoresAt generation object id rest ids last
  | _, _, _, _ => False

structure Region.At (effect : NodeId) (region : Region) (nodes : RegionNodes) (last : NodeId) : Prop where
  begins : graph.Has nodes.begins .beginRegion [effect]
  bytes : graph.Means trusted nodes.bytes (.int32 region.size.toInt32)
  object : graph.Has nodes.object (.allocate region.generation) [nodes.bytes, nodes.begins, control]
  stores : StoresAt trusted graph results control region.generation nodes.object nodes.object region.allStores nodes.stores last

def Action.At (before after : Plan.Progress) (made : List NodeId) : Action → Prop
  | .constant value => ∃ id, made = [] ∧ after = { before with results := before.results.push id } ∧
      graph.Means trusted id value
  | .node op values _ => ∃ id sources, made = [id] ∧
      after = { effect := if 0 < op.outputs.effects then id else before.effect, results := before.results.push id } ∧
      List.Forall₂ (fun value source => Operand.At trusted graph before.results source value) values sources ∧
      graph.Has id op (sources ++ (if 0 < op.layout.effects then [before.effect] else []) ++
        if 0 < op.layout.controls then [control] else [])
  | .region built => ∃ nodes last ends, made = nodes.chain ++ [ends] ∧
      after = { effect := ends, results := before.results.push ends } ∧
      built.At trusted graph before.results control before.effect nodes last ∧
      graph.Has ends .finishRegion [nodes.object, last]

def ActionsAt : Plan.Progress → List Action → List (List NodeId) → Plan.Progress → Prop
  | before, [], [], after => before = after
  | before, action :: rest, made :: more, after =>
    ∃ middle, action.At trusted graph control before middle made ∧ ActionsAt middle rest more after
  | _, _, _, _ => False

end

section

variable {trusted : Prop} {old new : Graph} (grown : Extends old new) {results : Array NodeId} {control : NodeId}

include grown

theorem operand_at_extends {id : NodeId} (stands : operand.At trusted old results id) : operand.At trusted new results id := by
  cases operand with
  | node other => exact stands
  | constant value => exact means_extends grown stands
  | made action => exact stands

theorem store_at_extends (done : store.At trusted old results control generation object effect id) :
    store.At trusted new results control generation object effect id := by
  cases store with
  | field access value =>
    obtain ⟨source, stands, has⟩ := done
    exact ⟨source, operand_at_extends grown stands, has_extends grown has⟩
  | element access index value =>
    obtain ⟨place, source, counts, stands, has⟩ := done
    exact ⟨place, source, means_extends grown counts, operand_at_extends grown stands, has_extends grown has⟩
  | misplaced fault => exact done

theorem stores_at_extends (done : StoresAt trusted old results control generation object effect stores ids last) :
    StoresAt trusted new results control generation object effect stores ids last := by
  induction stores generalizing effect ids with
  | nil =>
    cases ids with
    | nil => exact done
    | cons id rest => exact done.elim
  | cons store rest ih =>
    cases ids with
    | nil => exact done.elim
    | cons id ids => exact ⟨store_at_extends grown done.1, ih done.2⟩

theorem region_at_extends {nodes : RegionNodes} (done : region.At trusted old results control effect nodes last) :
    region.At trusted new results control effect nodes last where
  begins := has_extends grown done.begins
  bytes := means_extends grown done.bytes
  object := has_extends grown done.object
  stores := stores_at_extends grown done.stores

theorem action_at_extends {made : List NodeId} (done : action.At trusted old control before after made) :
    action.At trusted new control before after made := by
  cases action with
  | constant value =>
    obtain ⟨id, none, same, means⟩ := done
    exact ⟨id, none, same, means_extends grown means⟩
  | node op values type =>
    obtain ⟨id, sources, one, same, stand, has⟩ := done
    exact ⟨id, sources, one, same, stand.imp fun value source => operand_at_extends grown, has_extends grown has⟩
  | region region =>
    obtain ⟨nodes, last, ends, all, same, laid, has⟩ := done
    exact ⟨nodes, last, ends, all, same, region_at_extends grown laid, has_extends grown has⟩

theorem actions_at_extends {actions : List Action} {mades : List (List NodeId)} {before after : Plan.Progress}
    (done : ActionsAt trusted old control before actions mades after) :
    ActionsAt trusted new control before actions mades after := by
  induction actions generalizing before mades with
  | nil =>
    cases mades with
    | nil => exact done
    | cons made more => exact done.elim
  | cons action rest ih =>
    cases mades with
    | nil => exact done.elim
    | cons made more =>
      obtain ⟨middle, first, later⟩ := done
      exact ⟨middle, action_at_extends grown first, ih later⟩

end

section

variable {results : Array NodeId} {a b : Allocation} {trusted : Prop} {s t : Workspace} (known : trusted → s.graph.Interned)

include known

theorem resolve_adds (run : Plan.resolve results operand s = .ok id t) :
    Adds s.graph t.graph [] ∧ operand.At trusted t.graph results id := by
  cases operand with
  | node other =>
    cases run
    exact ⟨adds_refl, rfl⟩
  | constant value =>
    obtain ⟨added, lives, denotes⟩ := constant_adds run
    exact ⟨added, lives, fun holds => denotes (known holds)⟩
  | made action =>
    obtain ⟨found, rfl⟩ := runs_of_except.mp run
    exact ⟨adds_refl, present_eq_ok.mp found⟩

theorem resolve_all_adds {operands : List Operand} (run : operands.mapM (Plan.resolve results) s = .ok ids t) :
    Adds s.graph t.graph [] ∧
      Forall₂ (fun value source => Operand.At trusted t.graph results source value) operands ids := by
  induction operands generalizing s ids with
  | nil =>
    cases run
    exact ⟨adds_refl, .nil⟩
  | cons operand rest ih =>
    rw [mapM_cons, runs_bind] at run
    obtain ⟨first, u, here, run⟩ := run
    obtain ⟨further, v, there, run⟩ := runs_bind.mp run
    cases run
    obtain ⟨added, stands⟩ := resolve_adds known here
    obtain ⟨more, stand⟩ := ih (fun holds => added.interned (known holds)) there
    exact ⟨adds_trans added more, .cons (operand_at_extends more.grown stands) stand⟩

theorem store_adds (found : a.object = some object) (run : Plan.store results a store s = .ok b t) :
    ∃ id, b = { a with effect := id } ∧ Adds s.graph t.graph [id] ∧
      store.At trusted t.graph results a.control a.generation object a.effect id := by
  cases store with
  | field access value =>
    obtain ⟨source, u, resolved, run⟩ := runs_bind.mp run
    obtain ⟨added, stands⟩ := resolve_adds known resolved
    obtain ⟨_, _, here, run⟩ := runs_bind.mp run
    obtain ⟨same, rfl⟩ := runs_of_except.mp here
    cases found.symm.trans (present_eq_ok.mp same)
    obtain ⟨id, v, pushed, run⟩ := runs_bind.mp run
    cases run
    obtain ⟨more, has⟩ := add_node_adds pushed
    exact ⟨id, rfl, adds_trans added more, source, operand_at_extends more.grown stands, has⟩
  | element access index value =>
    obtain ⟨source, u, resolved, run⟩ := runs_bind.mp run
    obtain ⟨added, stands⟩ := resolve_adds known resolved
    obtain ⟨_, _, here, run⟩ := runs_bind.mp run
    obtain ⟨same, rfl⟩ := runs_of_except.mp here
    cases found.symm.trans (present_eq_ok.mp same)
    obtain ⟨place, v, counted, run⟩ := runs_bind.mp run
    obtain ⟨further, lives, denotes⟩ := constant_adds counted
    obtain ⟨id, w, pushed, run⟩ := runs_bind.mp run
    cases run
    obtain ⟨more, has⟩ := add_node_adds pushed
    refine ⟨id, rfl, adds_trans added (adds_trans further more), place, source, ?_, ?_, has⟩
    · exact means_extends more.grown ⟨lives, fun holds => denotes (added.interned (known holds))⟩
    · exact operand_at_extends (extends_trans further.grown more.grown) stands
  | misplaced fault => cases run

theorem stores_add (a : Allocation) (object : NodeId) (found : a.object = some object)
    (run : stores.foldlM (Plan.store results) a s = .ok b t) :
    ∃ ids, b = { a with effect := b.effect } ∧ Adds s.graph t.graph ids ∧
      StoresAt trusted t.graph results a.control a.generation object a.effect stores ids b.effect := by
  induction stores generalizing s a with
  | nil =>
    cases run
    exact ⟨[], rfl, adds_refl, rfl⟩
  | cons store rest ih =>
    rw [foldlM_cons, runs_bind] at run
    obtain ⟨c, u, first, later⟩ := run
    obtain ⟨id, rfl, added, done⟩ := store_adds known found first
    obtain ⟨ids, same, more, all⟩ := ih (fun holds => added.interned (known holds)) { a with effect := id } found later
    exact ⟨id :: ids, same, adds_trans added more, store_at_extends more.grown done, all⟩

theorem allocate_adds {size : UInt32} (run : a.allocate size generation type s = .ok b t) :
    ∃ begins bytes object, b = { a with object := some object, effect := object, generation := generation } ∧
      Adds s.graph t.graph [begins, object] ∧ t.graph.Has begins .beginRegion [a.effect] ∧
      t.graph.Means trusted bytes (.int32 size.toInt32) ∧
      t.graph.Has object (.allocate generation) [bytes, begins, a.control] := by
  -- Whatever is reported about the size, the graph stays the same.
  have rest : ∀ u : Workspace, u.graph = s.graph → (do
        let region ← addNode .beginRegion [a.effect]
        let bytes ← constant (.int32 size.toInt32)
        let object ← addTypedNode (.allocate generation) [bytes, region, a.control] type
        return { a with object := some object, effect := object, generation := generation } : Build Allocation) u = .ok b t →
      ∃ begins bytes object, b = { a with object := some object, effect := object, generation := generation } ∧
        Adds s.graph t.graph [begins, object] ∧ t.graph.Has begins .beginRegion [a.effect] ∧
        t.graph.Means trusted bytes (.int32 size.toInt32) ∧
        t.graph.Has object (.allocate generation) [bytes, begins, a.control] := by
    intro u same run
    obtain ⟨begins, v, opened, run⟩ := runs_bind.mp run
    obtain ⟨bytes, w, sized, run⟩ := runs_bind.mp run
    obtain ⟨object, x, allocated, run⟩ := runs_bind.mp run
    cases run
    obtain ⟨first, hasBegins⟩ := add_node_adds opened
    obtain ⟨second, lives, denotes⟩ := constant_adds sized
    obtain ⟨third, hasObject⟩ := add_typed_node_adds allocated
    rw [same] at first
    refine ⟨begins, bytes, object, rfl, adds_trans first (adds_trans second third), ?_, ?_, hasObject⟩
    · exact has_extends (extends_trans second.grown third.grown) hasBegins
    · exact means_extends third.grown ⟨lives, fun holds => denotes (first.interned (known holds))⟩
  obtain ⟨former, effect, control, earlier, limit⟩ := a
  cases limit with
  | none => exact rest s rfl run
  | some limit =>
    rw [Allocation.allocate] at run
    dsimp only at run
    split at run
    · obtain ⟨_, u, reported, run⟩ := runs_bind.mp run
      exact rest u (report_graph reported) run
    · exact rest s rfl run

theorem open_region_adds {progress : Plan.Progress} {b : Allocation}
    (run : plan.openRegion limit progress region s = .ok b t) :
    ∃ nodes, b.object = some nodes.object ∧ Adds s.graph t.graph nodes.chain ∧
      region.At trusted t.graph progress.results plan.control progress.effect nodes b.effect := by
  obtain ⟨a, u, allocated, run⟩ := runs_bind.mp run
  obtain ⟨begins, bytes, object, rfl, added, opened, sized, has⟩ := allocate_adds known allocated
  obtain ⟨ids, same, more, all⟩ := stores_add (fun holds => added.interned (known holds)) _ object rfl run
  refine ⟨⟨begins, bytes, object, ids⟩, by rw [same], adds_trans added more, ?_⟩
  exact
    { begins := has_extends more.grown opened
      bytes := means_extends more.grown sized
      object := has_extends more.grown has
      stores := all }

omit known in
theorem finish_adds {a : Allocation} {object : NodeId} (found : a.object = some object) {id : NodeId}
    (run : a.finish s = .ok id t) : Adds s.graph t.graph [id] ∧ t.graph.Has id .finishRegion [object, a.effect] := by
  obtain ⟨_, _, here, run⟩ := runs_bind.mp run
  obtain ⟨same, rfl⟩ := runs_of_except.mp here
  cases found.symm.trans (present_eq_ok.mp same)
  obtain ⟨node, _, there, run⟩ := runs_bind.mp run
  obtain ⟨_, rfl⟩ := runs_query.mp there
  exact add_typed_node_adds run

theorem perform_adds (run : plan.perform limit before action s = .ok after t) :
    ∃ made, Adds s.graph t.graph made ∧ action.At trusted t.graph plan.control before after made := by
  cases action with
  | constant value =>
    obtain ⟨id, u, found, run⟩ := runs_bind.mp run
    cases run
    obtain ⟨added, lives, denotes⟩ := constant_adds found
    exact ⟨[], added, id, rfl, rfl, lives, fun holds => denotes (known holds)⟩
  | node op values type =>
    obtain ⟨sources, u, resolved, run⟩ := runs_bind.mp run
    obtain ⟨id, v, pushed, run⟩ := runs_bind.mp run
    cases run
    obtain ⟨added, stand⟩ := resolve_all_adds known resolved
    obtain ⟨more, has⟩ := add_typed_node_adds pushed
    exact ⟨[id], adds_trans added more, id, sources, rfl, rfl,
      stand.imp fun value source => operand_at_extends more.grown, has⟩
  | region region =>
    obtain ⟨a, u, opened, run⟩ := runs_bind.mp run
    obtain ⟨ends, v, finished, run⟩ := runs_bind.mp run
    cases run
    obtain ⟨nodes, found, added, laid⟩ := open_region_adds known opened
    obtain ⟨more, has⟩ := finish_adds found finished
    exact ⟨nodes.chain ++ [ends], adds_trans added more, nodes, a.effect, ends, rfl, rfl,
      region_at_extends more.grown laid, has⟩

theorem perform_all_adds (plan : Plan) (limit : UInt32) (before after : Plan.Progress) (actions : List Action)
    (run : actions.foldlM (plan.perform limit) before s = .ok after t) :
    ∃ mades, Adds s.graph t.graph mades.flatten ∧ ActionsAt trusted t.graph plan.control before actions mades after := by
  induction actions generalizing s before with
  | nil =>
    cases run
    exact ⟨[], adds_refl, rfl⟩
  | cons action rest ih =>
    rw [foldlM_cons, runs_bind] at run
    obtain ⟨middle, u, first, later⟩ := run
    obtain ⟨made, added, done⟩ := perform_adds known first
    obtain ⟨mades, more, all⟩ := ih (fun holds => added.interned (known holds)) middle later
    exact ⟨made :: mades, adds_trans added more, middle, action_at_extends more.grown done, all⟩

end

end SeaOfNodes
