import SeaOfNodes.Proofs.Lowering.Expansion

/-! Carrying out a plan that only names live nodes lowers its creation. -/

namespace SeaOfNodes

open List SeaOfNodes.Graph

variable {region : Region} {last : NodeId} {id object effect : NodeId}

def Operand.Sound (graph : Graph) : Operand → Prop
  | .node id => graph.HasLive id
  | _ => True

def Store.Sound (graph : Graph) : Store → Prop
  | .field _ value | .element _ _ value => value.Sound graph
  | .misplaced fault => fault.Panic

def Region.Sound (graph : Graph) (region : Region) : Prop := ∀ store ∈ region.allStores, store.Sound graph

def Action.Sound (graph : Graph) : Action → Prop
  | .constant _ => True
  | .node op values _ => op.isControl = false ∧ ∀ value ∈ values, value.Sound graph
  | .region made => made.Sound graph

-- `control` is the control input of the creation. A plan that works at the entry instead leaves the creation in place.
structure Plan.Sound (graph : Graph) (control : NodeId) (plan : Plan) : Prop where
  effect : graph.HasLive plan.effect
  control : plan.control = control ∨ plan.control = Graph.start ∧ plan.ending = .become
  actions : ∀ action ∈ plan.actions, action.Sound graph
  last : plan.last.Sound graph

structure Plan.Progress.Sound (graph : Graph) (progress : Plan.Progress) : Prop where
  effect : graph.HasLive progress.effect
  results : ∀ id ∈ progress.results.toList, graph.HasLive id

structure Allocation.Opened (graph : Graph) (a : Allocation) : Prop where
  object : ∃ object, a.object = some object ∧ graph.Plain object
  effect : graph.Plain a.effect

theorem feasible_of_sound {graph : Graph} (fine : region.Sound graph) {count : Nat} :
    ∀ store ∈ region.allStores, store.Feasible False count := by
  have operands : ∀ operand : Operand, operand.Feasible False count := by
    intro operand
    cases operand with
    | made action => exact False.elim
    | _ => trivial
  intro store member
  have here := fine store member
  cases store with
  | field access value | element access index value => exact operands value
  | misplaced fault => exact ⟨id, here⟩

section

variable {before after : Plan.Progress} {old graph : Graph} (grown : Extends old graph)

include grown

section

variable {ids : List NodeId} {generation : Generation} {results : Array NodeId} (made : ∀ id ∈ results.toList, graph.HasLive id)

include made

theorem operand_live {operand : Operand} (fine : operand.Sound old) (stands : operand.At False graph results id) :
    graph.HasLive id := by
  cases operand with
  | node other =>
    cases stands
    exact live_extends grown fine
  | constant value => exact stands.1
  | made action => exact made id (Array.mem_toList_iff.mpr (Array.mem_of_getElem? stands))

theorem operands_live {operands : List Operand} (fine : ∀ operand ∈ operands, operand.Sound old)
    (stand : Forall₂ (fun operand id => Operand.At False graph results id operand) operands ids) :
    ∀ id ∈ ids, graph.HasLive id := by
  induction stand with
  | nil => simp
  | cons here _ ih =>
    obtain ⟨first, later⟩ := forall_mem_cons.mp fine
    exact forall_mem_cons.mpr ⟨operand_live grown made first here, ih later⟩

variable {control : NodeId} (source : graph.HasLive control)

include source

theorem store_sits {store : Store} (fine : store.Sound old) (allocated : graph.HasLive object) (chained : graph.HasLive effect)
    (done : store.At False graph results control generation object effect id) : graph.Sits id := by
  cases store with
  | field access value =>
    obtain ⟨stored, stands, has⟩ := done
    have lives := operand_live grown made fine stands
    exact ⟨_, _, has, rfl, by simp [allocated, lives, chained, source]⟩
  | element access index value =>
    obtain ⟨place, stored, counts, stands, has⟩ := done
    have lives := operand_live grown made fine stands
    exact ⟨_, _, has, rfl, by simp [allocated, counts.1, lives, chained, source]⟩
  | misplaced fault => exact done.elim

theorem stores_sit (allocated : graph.HasLive object) {stores : List Store} (fine : ∀ store ∈ stores, store.Sound old)
    (chained : graph.Sits effect)
    (done : StoresAt False graph results control generation object effect stores ids last) :
    (∀ id ∈ ids, graph.Sits id) ∧ graph.Sits last := by
  induction stores generalizing effect ids with
  | nil =>
    cases ids with
    | nil =>
      cases done
      exact ⟨by simp, chained⟩
    | cons id rest => exact done.elim
  | cons store rest ih =>
    cases ids with
    | nil => exact done.elim
    | cons id ids =>
      obtain ⟨first, later⟩ := forall_mem_cons.mp fine
      have sits := store_sits grown made source first allocated (graph.sits_live chained) done.1
      obtain ⟨more, ends⟩ := ih later sits done.2
      exact ⟨forall_mem_cons.mpr ⟨sits, more⟩, ends⟩

theorem region_sits (fine : region.Sound old) (chained : graph.HasLive effect) {nodes : RegionNodes}
    (done : region.At False graph results control effect nodes last) :
    (∀ id ∈ nodes.chain, graph.Sits id) ∧ graph.Sits nodes.object ∧ graph.Sits last := by
  have begins : graph.Sits nodes.begins := ⟨_, _, done.begins, rfl, by simpa using chained⟩
  have object : graph.Sits nodes.object :=
    ⟨_, _, done.object, rfl, by simp [done.bytes.1, graph.sits_live begins, source]⟩
  obtain ⟨stores, ends⟩ := stores_sit grown made source (graph.sits_live object) fine object done.stores
  exact ⟨forall_mem_cons.mpr ⟨begins, forall_mem_cons.mpr ⟨object, stores⟩⟩, object, ends⟩

end

variable {control : NodeId} (source : graph.HasLive control)

include source

theorem action_sits {action : Action} (fine : action.Sound old) (ready : before.Sound graph) {made : List NodeId}
    (done : action.At False graph control before after made) : (∀ id ∈ made, graph.Sits id) ∧ after.Sound graph := by
  have pushed : ∀ id effect, graph.HasLive id → graph.HasLive effect →
      Plan.Progress.Sound graph { effect := effect, results := before.results.push id } := by
    intro id effect live chained
    refine ⟨chained, fun other member => ?_⟩
    rw [Array.toList_push, mem_append, mem_singleton] at member
    rcases member with earlier | rfl
    · exact ready.results other earlier
    · exact live
  cases action with
  | constant value =>
    obtain ⟨id, rfl, rfl, means⟩ := done
    exact ⟨by simp, pushed id _ means.1 ready.effect⟩
  | node op values type =>
    obtain ⟨id, sources, rfl, rfl, stand, has⟩ := done
    have live := operands_live grown ready.results fine.2 stand
    have sits : graph.Sits id := by
      refine ⟨_, _, has, fine.1, forall_mem_append.mpr ⟨forall_mem_append.mpr ⟨live, ?_⟩, ?_⟩⟩
      · split
        · simpa using ready.effect
        · simp
      · split
        · simpa using source
        · simp
    refine ⟨forall_mem_singleton.mpr sits, pushed id _ (graph.sits_live sits) ?_⟩
    split
    · exact graph.sits_live sits
    · exact ready.effect
  | region region =>
    obtain ⟨nodes, last, ends, rfl, rfl, laid, has⟩ := done
    obtain ⟨chain, object, chained⟩ := region_sits grown ready.results source fine ready.effect laid
    have closes : graph.Sits ends :=
      ⟨_, _, has, rfl, by simp [graph.sits_live object, graph.sits_live chained]⟩
    have lives := graph.sits_live closes
    exact ⟨forall_mem_append.mpr ⟨chain, forall_mem_singleton.mpr closes⟩, pushed ends ends lives lives⟩

theorem actions_sit {actions : List Action} (fine : ∀ action ∈ actions, action.Sound old) {mades : List (List NodeId)}
    (ready : before.Sound graph) (done : ActionsAt False graph control before actions mades after) :
    (∀ id ∈ mades.flatten, graph.Sits id) ∧ after.Sound graph := by
  induction actions generalizing before mades with
  | nil =>
    cases mades with
    | nil =>
      cases done
      exact ⟨by simp, ready⟩
    | cons made more => exact done.elim
  | cons action rest ih =>
    cases mades with
    | nil => exact done.elim
    | cons made more =>
      obtain ⟨middle, first, later⟩ := done
      obtain ⟨here, there⟩ := forall_mem_cons.mp fine
      obtain ⟨sits, reached⟩ := action_sits grown source here ready first
      obtain ⟨others, ends⟩ := ih there reached later
      rw [flatten_cons]
      exact ⟨forall_mem_append.mpr ⟨sits, others⟩, ends⟩

end

section

variable {rank : NodeId → Nat} {s t : Workspace} (sound : Lowerable rank s.graph) (tolerant : s.journal.mode ≠ .validating)
  (plan : Plan) (source : s.graph.HasLive plan.control) (limit : UInt32)

include sound

theorem Allocation.finish_yields (a : Allocation) (opened : a.Opened s.graph) :
    Build.Yields a.finish s fun id t => Grows rank s t ∧ t.graph.Plain id := by
  obtain ⟨object, found, allocated⟩ := opened.object
  have lives := s.graph.plain_live allocated
  refine @ends_yields _ True _ _ _ (ends_finish found lives) fun id t run mode => ?_
  obtain ⟨added, has⟩ := finish_adds found run
  have sits : t.graph.Sits id := ⟨_, _, has, rfl, by
    simp [live_extends added.grown lives, live_extends added.grown (s.graph.plain_live opened.effect)]⟩
  exact ⟨⟨adds_expanded sound added (forall_mem_singleton.mpr sits), mode⟩, t.graph.sits_plain sits⟩

include tolerant source

theorem Plan.actions_yield (begins : s.graph.HasLive plan.effect) (fine : ∀ action ∈ plan.actions, action.Sound s.graph) :
    Build.Yields (plan.actions.foldlM (plan.perform limit) { effect := plan.effect }) s
      fun progress t => Grows rank s t ∧ s.graph.Extends t.graph ∧ progress.Sound t.graph := by
  have ends : Build.Ends False (plan.actions.foldlM (plan.perform limit) { effect := plan.effect }) s := by
    refine ends_perform_all plan limit plan.actions _ (.inr tolerant) fun place action listed => ?_
    have here := fine action (mem_of_getElem? listed)
    cases action with
    | constant value => trivial
    | node op values type => exact id
    | region region => exact feasible_of_sound here
  refine ends_yields _ _ ends fun progress t run mode => ?_
  obtain ⟨mades, added, done⟩ := perform_all_adds False.elim plan limit _ progress plan.actions run
  obtain ⟨sits, ready⟩ := actions_sit added.grown (live_extends added.grown source) fine
    ⟨live_extends added.grown begins, by simp⟩ done
  exact ⟨⟨adds_expanded sound added sits, mode⟩, added.grown, ready⟩

-- The region may name nodes of the graph that the plan was made for.
theorem Plan.open_region_yields {base : Graph} (grown : base.Extends s.graph) {progress : Plan.Progress} (ready : progress.Sound s.graph)
    (fine : region.Sound base) :
    Build.Yields (plan.openRegion limit progress region) s fun a t => Grows rank s t ∧ a.Opened t.graph := by
  refine ends_yields _ _ (ends_open_region plan limit (.inr tolerant) (feasible_of_sound fine)) fun a t run mode => ?_
  obtain ⟨nodes, found, added, laid⟩ := open_region_adds False.elim run
  have live := fun {id : NodeId} => @live_extends s.graph t.graph added.grown id
  obtain ⟨sits, object, last⟩ := region_sits (extends_trans grown added.grown) (fun id member => live (ready.results id member))
    (live source) fine (live ready.effect) laid
  exact ⟨⟨adds_expanded sound added sits, mode⟩, ⟨_, found, t.graph.sits_plain object⟩, t.graph.sits_plain last⟩

end

theorem Allocation.object_yields (a : Allocation) (s : Workspace) (found : a.object = some object) :
    Build.Yields (Build.ofExcept (present a.object)) s fun other t => object = other ∧ s = t := by
  refine Build.yields_of_except (yields_present fun other same => ⟨?_, rfl⟩)
  exact Option.some.inj (found.symm.trans same)

structure Edits (base : Workspace) (id : NodeId) (next : Node) (t : Workspace) : Prop where
  graph : Graph.Edited base.graph t.graph id next
  mode : t.journal.mode = base.journal.mode

theorem edits_change {base t : Workspace} {node next : Node} (edits : Edits base id node t) {change : Graph → Except Fault Graph}
    (spec : ∀ graph : Graph, graph.node? id = some node → Yields (change graph) fun new => graph.Edited new id next) :
    Build.Yields (Build.change change) t fun _ u => Edits base id next u := by
  refine Build.yields_change t (yields_mono (spec t.graph edits.graph.here) fun new edited => ?_)
  exact ⟨edited_trans edits.graph edited, edits.mode⟩

structure Consumed (rank : NodeId → Nat) (old new : Graph) (id : NodeId) : Prop where
  sound : Graph.Lowerable rank new
  pending : ∀ other, new.pending other = true ↔ old.pending other = true ∧ other ≠ id

theorem finish_inputs (object effect : NodeId) (inputs : List NodeId) (enough : 2 ≤ inputs.length) :
    ((inputs.set 0 object).set 1 effect).take 2 = [object, effect] := by
  match inputs, enough with
  | _ :: _ :: rest, _ => simp

theorem Allocation.finish_as_yields {rank : NodeId → Nat} (a : Allocation) {t : Workspace}
    (detached : Detached rank t.graph id) {node : Node} (live : t.graph.Live id node) (enough : 2 ≤ node.inputs.length)
    (found : a.object = some object) (objectLives : t.graph.HasLive object) (effectLives : t.graph.HasLive a.effect) :
    Build.Yields (a.finishAs id) t fun _ u =>
      Consumed rank t.graph u.graph id ∧ u.journal.mode = t.journal.mode := by
  have rest : ∀ u : Workspace, u.graph.Mirrored → Kept t.graph u.graph → Kept u.graph t.graph →
      u.journal.mode = t.journal.mode →
      Build.Yields (do
        Build.change fun graph => graph.replaceInput id 0 object
        Build.change fun graph => graph.replaceInput id 1 a.effect
        Build.change fun graph => graph.trimInputs id 2
        Build.change fun graph => graph.changeOp id .finishRegion) u
        fun _ v => Consumed rank t.graph v.graph id ∧ v.journal.mode = t.journal.mode := by
    intro u mirrored forward backward mode
    obtain ⟨next, alive, _, inputs⟩ := forward id node live
    have begun : Edits u id next u := ⟨edited_self u.graph alive.1, rfl⟩
    refine Build.yields_bind _ _ _ (edits_change begun fun graph read =>
      graph.replace_input_yields id 0 object next read) fun _ v first => ?_
    refine Build.yields_bind _ _ _ (edits_change first fun graph read =>
      graph.replace_input_yields id 1 a.effect _ read) fun _ w second => ?_
    refine Build.yields_bind _ _ _ (edits_change second fun graph read =>
      graph.trim_inputs_yields id 2 _ read) fun _ x third => ?_
    refine Build.yields_mono (edits_change third fun graph read =>
      graph.change_op_yields id .finishRegion _ read) fun _ y last => ?_
    have moved : ∀ other, t.graph.HasLive other → u.graph.HasLive other := by
      rintro other ⟨definition, known⟩
      obtain ⟨later, following, _⟩ := forward other definition known
      exact ⟨later, following⟩
    have shape : ((next.inputs.set 0 object).set 1 a.effect).take 2 = [object, a.effect] :=
      finish_inputs object a.effect next.inputs (inputs ▸ enough)
    have still := detached_alike detached mirrored forward backward
    refine ⟨⟨detached_finish still last.graph alive.2 rfl rfl ?_ ?_, ?_⟩, last.mode.trans mode⟩
    · exact congrArg length shape
    · intro input member
      rw [shape] at member
      simp only [mem_cons, not_mem_nil, or_false] at member
      rcases member with rfl | rfl
      · exact moved _ objectLives
      · exact moved _ effectLives
    · intro other
      rw [pending_edited last.graph (.inr rfl) other]
      refine and_congr_left fun _ => ⟨?_, ?_⟩
      · exact pending_kept backward
      · exact pending_kept forward
  -- A new type goes to the creation or to the object; neither touches an edge.
  have retyped : ∀ (target : NodeId) (type : ValueType) (before : Node), t.graph.node? target = some before →
      Build.Yields (Build.change fun graph => graph.setType target type) t fun _ u =>
        u.graph.Mirrored ∧ Kept t.graph u.graph ∧ Kept u.graph t.graph ∧ u.journal.mode = t.journal.mode := by
    intro target type before read
    refine Build.yields_change t (yields_mono (t.graph.set_type_yields target type before read) fun new edited => ?_)
    obtain ⟨forward, backward⟩ := retyped_kept read edited rfl rfl rfl
    exact ⟨edited.mirrored detached.mirrored, forward, backward, rfl⟩
  obtain ⟨definition, allocated⟩ := objectLives
  rw [finishAs]
  refine Build.yields_query_then (yields_present fun _ _ => trivial) fun read _ => ?_
  refine Build.yields_bind t _ _ (a.object_yields t found) ?_
  rintro _ _ ⟨rfl, rfl⟩
  dsimp only
  split
  · refine Build.yields_query_then (yields_present fun _ _ => trivial) fun made _ => ?_
    refine Build.yields_bind t _ _ (retyped id made.type node live.1) ?_
    rintro _ u ⟨mirrored, forward, backward, mode⟩
    exact rest u mirrored forward backward mode
  · refine Build.yields_bind t _ _ (retyped object read.type definition allocated.1) ?_
    rintro _ u ⟨mirrored, forward, backward, mode⟩
    exact rest u mirrored forward backward mode

def Succeeds (rank : NodeId → Nat) (s : Workspace) (id : NodeId) (reduction : Reduction) (t : Workspace) : Prop :=
  t.journal.mode = s.journal.mode ∧
    match reduction with
    | .unchanged => False
    | .changed _ => Consumed rank s.graph t.graph id
    | .replaced value => value ≠ id ∧ Graph.Detached rank t.graph id ∧ t.graph.HasLive id ∧
        (∀ other node, t.graph.Live other node → other ≠ id → id ∉ node.inputs) ∧
        ∀ other, t.graph.pending other = true ↔ s.graph.pending other = true

section

variable {value other : NodeId} {rank : NodeId → Nat} {s t : Workspace} {id control : NodeId} {node : Node}

theorem creates_grows (grows : Grows rank s t) (here : Creates s.graph id control node) :
    ∃ next, Creates t.graph id control next := by
  obtain ⟨next, live, op, inputs⟩ := grows.graph.kept id node here.live
  exact ⟨next, live, op ▸ here.creates, by rw [op, inputs]; exact here.control⟩

theorem creates_wide (sound : Lowerable rank s.graph) (here : Creates s.graph id control node) : 2 ≤ node.inputs.length := by
  obtain ⟨_, effects, controls, _⟩ := creation_layout node.op here.creates
  rw [(sound.nodes id node here.live).counted, InputLayout.total, InputLayout.firstControl, effects, controls]
  omega

theorem plain_redirected {old new : Graph} {creation source : NodeId}
    (redirected : Redirected old creation value effect source new) (plain : old.Plain other) : new.HasLive other :=
  redirected_live redirected other (plain_live old plain) (plain_unbypassed creation plain)

theorem plain_ne_creation (here : Creates s.graph id control node) (plain : s.graph.Plain other) : other ≠ id := by
  rintro rfl
  obtain ⟨next, live, off⟩ := plain
  rw [← live_unique s.graph here.live live, (creation_layout node.op here.creates).2.2.2] at off
  cases off

theorem succeeds_after {u : Workspace} {reduction : Reduction} (grows : Grows rank s t)
    (success : Succeeds rank t id reduction u) : Succeeds rank s id reduction u := by
  have same := pending_expanded grows.graph
  refine ⟨success.1.trans grows.mode, ?_⟩
  cases reduction with
  | unchanged => exact success.2.elim
  | changed again => exact ⟨success.2.sound, fun other => by rw [success.2.pending, same]⟩
  | replaced value =>
    obtain ⟨apart, detached, lives, unused, pending⟩ := success.2
    exact ⟨apart, detached, lives, unused, fun other => by rw [pending, same]⟩

theorem become_yields (sound : Lowerable rank s.graph) (here : Creates s.graph id control node)
    {a : Allocation} (opened : a.Opened s.graph) :
    Build.Yields (do
      Build.change fun graph => graph.relaxControls id
      a.finishAs id
      return Reduction.changed id) s (Succeeds rank s id) := by
  obtain ⟨object, found, allocated⟩ := opened.object
  have unbypassed := (creates_unbypassed sound here).1
  have able := creates_redirectable sound here unbypassed unbypassed
  have controls : 0 < node.op.layout.controls := by rw [(creation_layout node.op here.creates).2.2.1]; exact one_pos
  have relaxed := relax_controls_yields able here.live.1 controls here.control
  refine Build.yields_bind s (fun _ t => Redirected s.graph id id id control t.graph ∧ t.journal.mode = s.journal.mode) _
    (Build.yields_change s (yields_mono relaxed fun graph redirected => ⟨redirected, rfl⟩)) ?_
  rintro _ t ⟨redirected, mode⟩
  obtain ⟨next, live, _, inputs⟩ := redirected.kept id node here.live unbypassed
  have detached := redirected_detached redirected sound here ⟨node, here.live⟩ ⟨node, here.live⟩ unbypassed unbypassed
  have enough : 2 ≤ next.inputs.length := by
    rw [inputs, length_mapIdx]
    exact creates_wide sound here
  have finished := a.finish_as_yields detached live enough found
    (plain_redirected redirected allocated) (plain_redirected redirected opened.effect)
  refine Build.yields_bind t _ _ finished ?_
  rintro _ u ⟨consumed, modeAgain⟩
  refine Build.yields_pure ⟨modeAgain.trans mode, consumed.sound, fun other => ?_⟩
  rw [consumed.pending, pending_redirected redirected]

theorem replace_yields (sound : Lowerable rank s.graph) (here : Creates s.graph id control node)
    (plain : s.graph.Plain value) :
    Build.Yields (do
      Build.change fun graph => graph.replaceWithValue id value (some value) (some control)
      return Reduction.replaced value) s (Succeeds rank s id) := by
  have kept := plain_unbypassed id plain
  have lives := plain_live s.graph plain
  have apart := plain_ne_creation here plain
  have moved := replace_with_value_yields (creates_redirectable sound here kept kept) here.live.1
  refine Build.yields_bind s
    (fun _ t => Redirected s.graph id value value control t.graph ∧ t.journal.mode = s.journal.mode) _
    (Build.yields_change s (yields_mono moved fun graph redirected => ⟨redirected, rfl⟩)) ?_
  rintro _ t ⟨redirected, mode⟩
  refine Build.yields_pure ⟨mode, apart, redirected_detached redirected sound here lives lives kept kept, ?_, ?_, ?_⟩
  · exact redirected_live redirected id ⟨node, here.live⟩ (creates_unbypassed sound here).1
  · exact fun other next live _ => redirected_unused redirected sound here apart apart live
  · exact pending_redirected redirected

theorem Plan.execute_yields (sound : Lowerable rank s.graph) (tolerant : s.journal.mode ≠ .validating)
    (here : Creates s.graph id control node) (plan : Plan) (fine : plan.Sound s.graph control) (limit : UInt32) :
    Build.Yields (plan.execute limit id) s (Succeeds rank s id) := by
  have source : s.graph.HasLive plan.control := by
    rcases fine.control with same | ⟨same, _⟩
    · rw [same]
      exact (sound.nodes id node here.live).inputs control (mem_of_getElem? here.control)
    · obtain ⟨first, live, _⟩ := sound.entry
      exact ⟨first, same ▸ live⟩
  rw [execute]
  refine Build.yields_bind s _ _ (plan.actions_yield sound tolerant source limit fine.effect fine.actions) ?_
  rintro progress t ⟨grows, grown, ready⟩
  refine Build.yields_bind t _ _ (plan.open_region_yields grows.graph.sound (grows.mode ▸ tolerant) (grows_live grows source)
    limit grown ready fine.last) ?_
  rintro a u ⟨further, opened⟩
  have reached := grows_trans grows further
  obtain ⟨next, there⟩ := creates_grows reached here
  cases ending : plan.ending with
  | become =>
    have done := become_yields reached.graph.sound there opened
    exact Build.yields_mono done fun reduction v success => succeeds_after reached success
  | replace =>
    have own : plan.control = control := by
      rcases fine.control with same | ⟨_, become⟩
      · exact same
      · rw [ending] at become
        cases become
    refine Build.yields_bind u _ _ (a.finish_yields reached.graph.sound opened) ?_
    rintro value v ⟨last, plain⟩
    have all := grows_trans reached last
    obtain ⟨final, still⟩ := creates_grows all here
    have done := replace_yields all.graph.sound still plain
    rw [own]
    exact Build.yields_mono done fun reduction w success => succeeds_after all success

end

end SeaOfNodes
