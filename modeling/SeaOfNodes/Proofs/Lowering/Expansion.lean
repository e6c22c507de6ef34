import SeaOfNodes.Proofs.Creation.Emission
import SeaOfNodes.Proofs.Lowering.Detach

/-! Carrying out the actions of a plan. -/

namespace SeaOfNodes

open List

variable {graph : Graph} {made : List NodeId} {id : NodeId}

def Operand.Feasible (total : Prop) (count : Nat) : Operand → Prop
  | .made action => total → action < count
  | _ => True

def Store.Feasible (total : Prop) (count : Nat) : Store → Prop
  | .field _ value | .element _ _ value => value.Feasible total count
  | .misplaced fault => ¬ total ∧ fault.Panic

def Action.Feasible (total : Prop) (count : Nat) : Action → Prop
  | .constant _ => True
  | .node .. => ¬ total
  | .region made => ∀ store ∈ made.allStores, store.Feasible total count

section

variable {op : Operator} {inputs : List NodeId} {type : ValueType} {results : Array NodeId} {a : Allocation}
  {object control : NodeId} {α β : Type} {total : Prop} {s : Workspace}

-- Only work that need not be total may stop, and only at a panic.
def Build.Ends (total : Prop) (work : Build α) (s : Workspace) : Prop :=
  match work s with
  | .ok _ t => t.journal.mode = s.journal.mode
  | .error fault _ => ¬ total ∧ fault.Panic

theorem ends_yields (work : Build α) (good : α → Workspace → Prop) (ends : work.Ends total s)
    (known : ∀ value t, work s = .ok value t → t.journal.mode = s.journal.mode → good value t) : work.Yields s good := by
  rw [Build.Ends] at ends
  rw [Build.Yields]
  cases outcome : work s with
  | ok value t =>
    rw [outcome] at ends
    exact known value t outcome ends
  | error fault t =>
    rw [outcome] at ends
    exact ends.2

theorem ends_total {work : Build α} (ends : work.Ends True s) :
    ∃ value t, work s = .ok value t ∧ t.journal.mode = s.journal.mode := by
  rw [Build.Ends] at ends
  cases outcome : work s with
  | ok value t =>
    rw [outcome] at ends
    exact ⟨value, t, rfl, ends⟩
  | error fault t =>
    rw [outcome] at ends
    exact absurd trivial ends.1

theorem ends_bind {first : Build α} {next : α → Build β} (begins : first.Ends total s)
    (goes : ∀ value t, first s = .ok value t → t.journal.mode = s.journal.mode → (next value).Ends total t) :
    (first >>= next).Ends total s := by
  have runs : (first >>= next) s = EStateM.bind first next s := rfl
  rw [Build.Ends] at begins
  rw [Build.Ends, runs, EStateM.bind]
  cases outcome : first s with
  | ok value t =>
    rw [outcome] at begins
    have later := goes value t outcome begins
    rw [Build.Ends, begins] at later
    exact later
  | error fault t =>
    rw [outcome] at begins
    exact begins

theorem ends_pure (value : α) : (pure value : Build α).Ends total s := rfl

theorem ends_of_except {outcome : Except Fault α} (panics : Yields outcome fun _ => True) (done : total → ∃ value, outcome = .ok value) :
    (Build.ofExcept outcome).Ends total s := by
  cases outcome with
  | ok value => rfl
  | error fault =>
    refine ⟨fun holds => ?_, panics⟩
    obtain ⟨_, impossible⟩ := done holds
    cases impossible

theorem ends_present {found : Option α} (there : total → ∃ value, found = some value) :
    (Build.ofExcept (present found)).Ends total s := by
  refine ends_of_except (yields_present fun _ _ => trivial) fun holds => ?_
  obtain ⟨value, same⟩ := there holds
  exact ⟨value, present_eq_ok.mpr same⟩

theorem ends_edit {change : Graph → Except Fault (α × Graph)} (panics : Yields (change s.graph) fun _ => True)
    (done : total → ∃ result, change s.graph = .ok result) : (Build.edit change).Ends total s :=
  ends_bind (ends_of_except panics done) fun _ _ _ _ => rfl

theorem ends_constant (value : Constant) : (Build.constant value).Ends total s := ends_edit trivial fun _ => ⟨_, rfl⟩

theorem add_node_panics (graph : Graph) (op : Operator) (inputs : List NodeId) : Yields (graph.addNode op inputs) fun _ => True :=
  yields_then (yields_checked_layout fun _ => trivial) fun _ _ =>
    yields_then (yields_require fun _ => trivial) fun _ _ => trivial

theorem ends_add_node (shape : total → op.fits ∧ inputs.length = op.layout.total) : (Build.addNode op inputs).Ends total s :=
  ends_edit (add_node_panics s.graph op inputs) fun holds =>
    ⟨_, s.graph.add_node_eq_ok.mpr ⟨(shape holds).1, (shape holds).2, rfl⟩⟩

theorem ends_add_typed_node (shape : total → op.fits ∧ inputs.length = op.layout.total) :
    (Build.addTypedNode op inputs type).Ends total s :=
  ends_edit (yields_then (add_node_panics s.graph op inputs) fun _ _ => trivial) fun holds =>
    ⟨_, bind_eq_ok.mpr ⟨_, s.graph.add_node_eq_ok.mpr ⟨(shape holds).1, (shape holds).2, rfl⟩, rfl⟩⟩

theorem ends_resolve {results : Array NodeId} {operand : Operand} (feasible : operand.Feasible total results.size) :
    (Plan.resolve results operand).Ends total s := by
  cases operand with
  | node other => exact ends_pure other
  | constant value => exact ends_constant value
  | made action => exact ends_present fun holds => ⟨_, Array.getElem?_eq_getElem (feasible holds)⟩

theorem ends_resolve_all (results : Array NodeId) (operands : List Operand) (partly : ¬ total) :
    (operands.mapM (Plan.resolve results)).Ends total s := by
  induction operands generalizing s with
  | nil => exact ends_pure []
  | cons operand rest ih =>
    rw [mapM_cons]
    refine ends_bind (ends_resolve ?_) fun _ _ _ _ => ends_bind ih fun _ _ _ _ => ends_pure _
    cases operand with
    | made action => exact fun holds => absurd holds partly
    | _ => trivial

theorem ends_store (found : a.object = some object) {store : Store} (feasible : store.Feasible total results.size) :
    (Plan.store results a store).Ends total s := by
  cases store with
  | field access value =>
    refine ends_bind (ends_resolve feasible) fun _ _ _ _ => ?_
    refine ends_bind (ends_present fun _ => ⟨object, found⟩) fun _ _ _ _ => ?_
    exact ends_bind (ends_add_node fun _ => ⟨rfl, rfl⟩) fun _ _ _ _ => ends_pure _
  | element access index value =>
    refine ends_bind (ends_resolve feasible) fun _ _ _ _ => ?_
    refine ends_bind (ends_present fun _ => ⟨object, found⟩) fun _ _ _ _ => ?_
    refine ends_bind (ends_constant _) fun _ _ _ _ => ?_
    exact ends_bind (ends_add_node fun _ => ⟨rfl, rfl⟩) fun _ _ _ _ => ends_pure _
  | misplaced fault => exact feasible

theorem ends_stores (object : NodeId) (found : a.object = some object) {stores : List Store}
    (feasible : ∀ store ∈ stores, store.Feasible total results.size) : (stores.foldlM (Plan.store results) a).Ends total s := by
  induction stores generalizing s a with
  | nil => exact ends_pure a
  | cons store rest ih =>
    obtain ⟨first, later⟩ := forall_mem_cons.mp feasible
    rw [foldlM_cons]
    refine ends_bind (ends_store found first) fun b u stored _ => ?_
    -- Whatever the store does to the graph, the object stays the same.
    obtain ⟨id, rfl, _⟩ := store_adds False.elim found stored
    exact ih found later

-- A region above the limit is reported, which ends the work of a validating journal only.
theorem ends_allocate {effect : NodeId} {limit size : UInt32} {generation : Generation}
    (quiet : size ≤ limit ∨ s.journal.mode ≠ .validating) :
    (Allocation.allocate { effect := effect, control := control, limit := some limit } size generation type).Ends total s := by
  have rest : ∀ u (result : NodeId → Allocation), Build.Ends total (do
      let region ← Build.addNode .beginRegion [effect]
      let bytes ← Build.constant (.int32 size.toInt32)
      let object ← Build.addTypedNode (.allocate generation) [bytes, region, control] type
      return result object) u := by
    intro u result
    refine ends_bind (ends_add_node fun _ => ⟨rfl, rfl⟩) fun _ _ _ _ => ?_
    refine ends_bind (ends_constant _) fun _ _ _ _ => ?_
    exact ends_bind (ends_add_typed_node fun _ => ⟨rfl, rfl⟩) fun _ _ _ _ => ends_pure _
  rw [Allocation.allocate]
  dsimp only
  split
  · rename_i large
    refine ends_bind ?_ fun _ u _ _ => rest u _
    obtain ⟨journal, reported, kept⟩ := Build.runs_report (.allocationTooLarge size limit)
      (quiet.resolve_left (UInt32.not_le.mpr large))
    rw [Build.Ends, reported]
    exact kept
  · exact rest s _

theorem ends_open_region (plan : Plan) (limit : UInt32) {progress : Plan.Progress} {region : Region}
    (quiet : region.size ≤ limit ∨ s.journal.mode ≠ .validating)
    (feasible : ∀ store ∈ region.allStores, store.Feasible total progress.results.size) :
    (plan.openRegion limit progress region).Ends total s := by
  refine ends_bind (ends_allocate quiet) fun a u allocated _ => ?_
  obtain ⟨_, _, object, rfl, _⟩ := allocate_adds False.elim allocated
  exact ends_stores object rfl feasible

theorem ends_finish (found : a.object = some object) (lives : s.graph.HasLive object) : a.finish.Ends total s := by
  refine ends_bind (ends_present fun _ => ⟨object, found⟩) fun other u here _ => ?_
  obtain ⟨same, rfl⟩ := Build.runs_of_except.mp here
  cases found.symm.trans (present_eq_ok.mp same)
  obtain ⟨node, live⟩ := lives
  have read : s.graph.node object = .ok node := (s.graph.node_eq_ok object node).mpr live.1
  have panics : Yields (s.graph.node object) fun _ => True := by
    rw [read]
    trivial
  exact ends_bind (ends_of_except panics fun _ => ⟨node, read⟩) fun _ _ _ _ => ends_add_typed_node fun _ => ⟨rfl, rfl⟩

theorem action_at_size {before after : Plan.Progress} {action : Action} (done : action.At False graph control before after made) :
    after.results.size = before.results.size + 1 := by
  cases action with
  | constant value =>
    obtain ⟨id, _, rfl, _⟩ := done
    exact Array.size_push _
  | node op values type =>
    obtain ⟨id, _, _, rfl, _⟩ := done
    exact Array.size_push _
  | region region =>
    obtain ⟨_, _, id, _, rfl, _⟩ := done
    exact Array.size_push _

theorem ends_perform_all (plan : Plan) (limit : UInt32) (actions : List Action) (progress : Plan.Progress)
    (quiet : (∀ region, Action.region region ∈ actions → region.size ≤ limit) ∨ s.journal.mode ≠ .validating)
    (feasible : ∀ place (action : Action), actions[place]? = some action → action.Feasible total (progress.results.size + place)) :
    (actions.foldlM (plan.perform limit) progress).Ends total s := by
  induction actions generalizing s progress with
  | nil => exact ends_pure progress
  | cons action rest ih =>
    have here := feasible 0 action rfl
    rw [foldlM_cons]
    refine ends_bind ?_ fun next u performed kept => ?_
    · cases action with
      | constant value => exact ends_bind (ends_constant value) fun _ _ _ _ => ends_pure _
      | node op values type =>
        refine ends_bind (ends_resolve_all progress.results values here) fun _ _ _ _ => ?_
        exact ends_bind (ends_add_typed_node fun holds => absurd holds here) fun _ _ _ _ => ends_pure _
      | region region =>
        have small := quiet.imp_left fun sizes => sizes region mem_cons_self
        refine ends_bind (ends_open_region plan limit small here) fun a u opened _ => ?_
        obtain ⟨nodes, found, _, laid⟩ := open_region_adds False.elim opened
        obtain ⟨node, live, _⟩ := laid.object
        exact ends_bind (ends_finish found ⟨node, live⟩) fun _ _ _ _ => ends_pure _
    · obtain ⟨made, _, done⟩ := perform_adds False.elim performed
      refine ih next ?_ fun place other listed => ?_
      · rw [kept]
        exact quiet.imp_left fun sizes region member => sizes region (mem_cons_of_mem action member)
      · rw [action_at_size done, Nat.add_right_comm]
        exact feasible (place + 1) other listed

end

namespace Graph

def Plain (graph : Graph) (id : NodeId) : Prop := ∃ node, graph.Live id node ∧ node.op.isControl = false

theorem plain_live (graph : Graph) (plain : graph.Plain id) : graph.HasLive id := by
  obtain ⟨node, live, _⟩ := plain
  exact ⟨node, live⟩

theorem plain_unbypassed (creation : NodeId) (plain : graph.Plain id) : graph.bypasses creation id = false := by
  rw [Bool.eq_false_iff, Ne, bypasses_iff]
  rintro ⟨node, live, success, _⟩
  obtain ⟨again, liveAgain, off⟩ := plain
  rw [live_unique graph liveAgain live, success] at off
  cases off

def Sits (graph : Graph) (id : NodeId) : Prop :=
  ∃ op inputs, graph.Has id op inputs ∧ op.isControl = false ∧ ∀ input ∈ inputs, graph.HasLive input

theorem sits_plain (graph : Graph) (sits : graph.Sits id) : graph.Plain id := by
  obtain ⟨_, _, ⟨node, live, rfl, _⟩, plain, _⟩ := sits
  exact ⟨node, live, plain⟩

theorem sits_live (graph : Graph) (sits : graph.Sits id) : graph.HasLive id :=
  graph.plain_live (graph.sits_plain sits)

theorem adds_expanded {rank : NodeId → Nat} {old new : Graph} (sound : Lowerable rank old) (added : Adds old new made)
    (sits : ∀ id ∈ made, new.Sits id) : Expanded rank old new := by
  have kept : Kept old new := by
    intro id node live
    obtain ⟨type, read⟩ := added.grown.kept id node live.1
    exact ⟨_, ⟨read, live.2⟩, rfl, rfl⟩
  have lives : ∀ input definition, old.Live input definition → ∃ later, new.Live input later :=
    fun input definition live => live_extends added.grown ⟨definition, live⟩
  -- A node is from before, or off the control flow.
  have cases_ : ∀ id node, new.Live id node → (∃ before, old.Live id before ∧ before.op = node.op ∧ before.inputs = node.inputs) ∨
      node.op.isControl = false ∧ node.op.fits ∧ node.inputs.length = node.op.layout.total ∧
        ∀ input ∈ node.inputs, new.HasLive input := by
    intro id node live
    by_cases early : id < old.size
    · obtain ⟨former, read⟩ := old.node_of_lt id early
      obtain ⟨type, again⟩ := added.grown.kept id former read
      cases live.1.symm.trans again
      exact .inl ⟨former, ⟨read, live.2⟩, rfl, rfl⟩
    · right
      rcases added.others id node (Nat.le_of_not_lt early) live.1 with listed | ⟨value, constant, none⟩
      · obtain ⟨_, _, ⟨same, alive, rfl, rfl, fits, counted⟩, plain, inputs⟩ := sits id listed
        rw [new.live_unique live alive]
        exact ⟨plain, fits, counted, inputs⟩
      · rw [constant, none]
        exact ⟨rfl, rfl, rfl, by simp⟩
  refine ⟨⟨added.grown.mirrored sound.mirrored, ?_, fun id node live => ?_⟩, kept, fun id node live control => ?_⟩
  · obtain ⟨first, live, begins⟩ := sound.entry
    obtain ⟨later, after, same, _⟩ := kept start first live
    exact ⟨later, after, same.trans begins⟩
  · rcases cases_ id node live with ⟨before, known, op, inputs⟩ | ⟨plain, fits, counted, inputs⟩
    · exact ready_transport node (sound.nodes id before known) op.symm inputs.symm lives (control_used_kept kept id)
    · exact ready_plain plain fits counted inputs
  · refine (cases_ id node live).resolve_right fun off => ?_
    rw [off.1] at control
    cases control

end Graph

-- What holds of a workspace in the middle of an expansion that began in `s`.
structure Grows (rank : NodeId → Nat) (s t : Workspace) : Prop where
  graph : Graph.Expanded rank s.graph t.graph
  mode : t.journal.mode = s.journal.mode

section

variable {rank : NodeId → Nat} {s t : Workspace}

theorem grows_trans {u : Workspace} (first : Grows rank s t) (second : Grows rank t u) : Grows rank s u :=
  ⟨Graph.expanded_trans first.graph second.graph, second.mode.trans first.mode⟩

theorem grows_live (grows : Grows rank s t) (live : s.graph.HasLive id) : t.graph.HasLive id :=
  Graph.expanded_live grows.graph live

end

end SeaOfNodes
