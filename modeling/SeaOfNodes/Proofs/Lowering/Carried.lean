import SeaOfNodes.Proofs.Creation.Executed

/-! What may throw, where its projections hang, and the edits of a graph that leave them there. -/

namespace SeaOfNodes

variable {id : NodeId}

namespace Operator

def throws : Operator → Bool
  | .call _ | .create _ => true
  | _ => false

def resumes : Operator → Bool
  | .control .ifSuccess | .control .ifException => true
  | _ => false

theorem throws_moves (op : Operator) (throws : op.throws) : op.stays = false := by
  cases op with
  | call site => rfl
  | create request => rfl
  | _ => cases throws

theorem resumes_moves (op : Operator) (resumes : op.resumes) : op.stays = false := by
  cases op with
  | control kind =>
    cases kind with
    | ifSuccess => rfl
    | ifException => rfl
    | _ => cases resumes
  | _ => cases resumes

theorem resumes_shape (op : Operator) (resumes : op.resumes) : op.fits ∧ 0 < op.layout.controls := by
  cases op with
  | control kind =>
    cases kind with
    | ifSuccess => decide
    | ifException => decide
    | _ => cases resumes
  | _ => cases resumes

theorem throws_of_creation (op : Operator) (creates : op.isCreation) : op.throws ∧ op.resumes = false := by
  cases op with
  | create request => exact ⟨rfl, rfl⟩
  | _ => cases creates

end Operator

namespace Graph

def Throws (graph : Graph) (id : NodeId) : Prop := ∃ node, graph.Live id node ∧ node.op.throws = true

def Calls (graph : Graph) (id : NodeId) : Prop := ∃ node site, graph.Live id node ∧ node.op = .call site

theorem throws_iff (graph : Graph) {id : NodeId} : graph.Throws id ↔ graph.Calls id ∨ graph.pending id := by
  rw [pending_iff]
  constructor
  · rintro ⟨node, live, throws⟩
    cases op : node.op with
    | call site => exact .inl ⟨node, site, live, op⟩
    | create request => exact .inr ⟨node, live, by rw [op]; rfl⟩
    | _ =>
      rw [op] at throws
      cases throws
  · rintro (⟨node, site, live, op⟩ | ⟨node, live, creates⟩)
    · exact ⟨node, live, by rw [op]; rfl⟩
    · exact ⟨node, live, (node.op.throws_of_creation creates).1⟩

theorem throws_unbypassed (graph : Graph) (id : NodeId) {other : NodeId} (throws : graph.Throws other) :
    graph.bypasses id other = false := by
  refine Bool.eq_false_iff.mpr fun bypassed => ?_
  obtain ⟨node, live, projects, _⟩ := (bypasses_iff graph id other).mp bypassed
  obtain ⟨again, alive, throws⟩ := throws
  cases graph.live_unique live alive
  rw [projects] at throws
  cases throws

theorem control_input_iff (graph : Graph) {id : NodeId} {node : Node} (live : graph.Live id node) (resumes : node.op.resumes)
    {source : NodeId} : graph.controlInput id = .ok source ↔ node.inputs[node.op.layout.firstControl]? = some source := by
  obtain ⟨fits, some⟩ := node.op.resumes_shape resumes
  simp only [controlInput, bind_eq_ok, layout_eq_ok, require_eq_ok, input_eq_ok, decide_eq_true_eq, add_zero]
  constructor
  · rintro ⟨_, ⟨again, read, _, rfl⟩, _, _, other, found, edge⟩
    cases live.1.symm.trans read
    cases live.1.symm.trans found
    exact edge
  · intro edge
    exact ⟨_, ⟨node, live.1, fits, rfl⟩, (), some, node, live.1, edge⟩

end Graph

-- Where the projections of a graph that began as `origin` hang while a creation, the `hole`, is being taken apart.
structure Projected (origin : Graph) (hole : Option NodeId) (graph : Graph) : Prop where
  mirrored : graph.Mirrored
  successes : ∀ id node, graph.Live id node → node.op = .control .ifSuccess →
    ∃ source, node.inputs[0]? = some source ∧ graph.Throws source ∧ hole ≠ some source
  exceptions : ∀ id node, graph.Live id node → node.op = .control .ifException →
    ∃ source, origin.controlInput id = .ok source ∧ origin.Throws source ∧
      (graph.Throws source → hole ≠ some source → node.inputs[1]? = some source)
  calls : ∀ id, origin.Calls id → graph.Calls id

structure Carries (old : Graph) (hole : Option NodeId) (new : Graph) : Prop where
  mirrored : old.Mirrored → new.Mirrored
  resuming : ∀ id node, new.Live id node → node.op.resumes = true → ∃ former, old.Live id former ∧ former.op = node.op ∧
      ∀ source, former.inputs[node.op.layout.firstControl]? = some source → old.Throws source → hole ≠ some source →
        node.inputs[node.op.layout.firstControl]? = some source
  throws : ∀ id, hole ≠ some id → (new.Throws id ↔ old.Throws id)
  calls : ∀ id, old.Calls id → new.Calls id

section

variable {origin old new : Graph} {hole later : Option NodeId}

theorem projected_widened (projected : Projected origin hole old) (carries : Carries old later new)
    (wider : ∀ id, later ≠ some id → hole ≠ some id)
    (apart : ∀ id former node source, old.Live id former → former.op = .control .ifSuccess → new.Live id node →
      former.inputs[0]? = some source → hole ≠ some source → later ≠ some source) : Projected origin later new where
  mirrored := carries.mirrored projected.mirrored
  successes id node live success := by
    obtain ⟨former, before, same, kept⟩ := carries.resuming id node live (by rw [success]; rfl)
    rw [success] at same kept
    obtain ⟨source, edge, throws, outside⟩ := projected.successes id former before same
    have away := apart id former node source before same live edge outside
    exact ⟨source, kept source edge throws away, (carries.throws source away).mpr throws, away⟩
  exceptions id node live catches := by
    obtain ⟨former, before, same, kept⟩ := carries.resuming id node live (by rw [catches]; rfl)
    rw [catches] at same kept
    obtain ⟨source, hung, able, follows⟩ := projected.exceptions id former before same
    refine ⟨source, hung, able, fun throws outside => ?_⟩
    have threw := (carries.throws source outside).mp throws
    exact kept source (follows threw (wider source outside)) threw outside
  calls id called := carries.calls id (projected.calls id called)

theorem projected_carried (projected : Projected origin hole old) (carries : Carries old hole new) : Projected origin hole new :=
  projected_widened projected carries (fun _ => id) fun _ _ _ _ _ _ _ _ outside => outside

-- Once the creation is gone, its exception projections may hang anywhere.
theorem projected_closed {graph : Graph} (projected : Projected origin (some id) graph) (quiet : ¬ graph.Throws id) :
    Projected origin none graph where
  mirrored := projected.mirrored
  successes other node live success := by
    obtain ⟨source, edge, throws, _⟩ := projected.successes other node live success
    exact ⟨source, edge, throws, nofun⟩
  exceptions other node live catches := by
    obtain ⟨source, hung, able, follows⟩ := projected.exceptions other node live catches
    refine ⟨source, hung, able, fun throws _ => follows throws ?_⟩
    rintro same
    cases same
    exact quiet throws
  calls := projected.calls

end

section

variable {made : List NodeId} {old new : Graph}

-- Where operators stay, it is enough to look at one node at a time.
theorem carries_same (hole : Option NodeId) (mirrored : old.Mirrored → new.Mirrored)
    (back : ∀ id node, new.Live id node → node.op.stays = false → ∃ former, old.Live id former ∧ former.op = node.op ∧
      (node.op.resumes → ∀ source, former.inputs[node.op.layout.firstControl]? = some source → old.Throws source →
        hole ≠ some source → node.inputs[node.op.layout.firstControl]? = some source))
    (forward : ∀ id node, old.Live id node → node.op.throws → ∃ next, new.Live id next ∧ next.op = node.op) :
    Carries old hole new where
  mirrored := mirrored
  resuming id node live resumes := by
    obtain ⟨former, before, op, kept⟩ := back id node live (node.op.resumes_moves resumes)
    exact ⟨former, before, op, kept resumes⟩
  throws id _ := by
    constructor
    · rintro ⟨node, live, throws⟩
      obtain ⟨former, before, op, _⟩ := back id node live (node.op.throws_moves throws)
      exact ⟨former, before, op ▸ throws⟩
    · rintro ⟨node, live, throws⟩
      obtain ⟨next, after, op⟩ := forward id node live throws
      exact ⟨next, after, op ▸ throws⟩
  calls := by
    rintro id ⟨node, site, live, called⟩
    obtain ⟨next, after, op⟩ := forward id node live (by rw [called]; rfl)
    exact ⟨next, site, after, op.trans called⟩

-- What a plan adds neither throws nor projects.
theorem carries_adds (added : Graph.Adds old new made) (stays : ∀ user ∈ made, ∃ op, new.Performs user op ∧ op.stays)
    (hole : Option NodeId) : Carries old hole new := by
  refine carries_same hole added.grown.mirrored (fun id node live moves => ?_) fun id node live _ => ?_
  · obtain ⟨former, before, op, inputs⟩ := adds_back added stays live moves
    exact ⟨former, before, op, fun _ source edge _ _ => inputs ▸ edge⟩
  · obtain ⟨type, read⟩ := added.grown.kept id node live.1
    exact ⟨_, ⟨read, live.2⟩, rfl⟩

theorem pending_adds (added : Graph.Adds old new made) (stays : ∀ user ∈ made, ∃ op, new.Performs user op ∧ op.stays)
    (id : NodeId) : new.pending id ↔ old.pending id := by
  rw [Graph.pending_iff, Graph.pending_iff]
  constructor
  · rintro ⟨node, live, creates⟩
    obtain ⟨former, before, op, _⟩ := adds_back added stays live (node.op.throws_moves (node.op.throws_of_creation creates).1)
    exact ⟨former, before, op ▸ creates⟩
  · rintro ⟨node, live, creates⟩
    obtain ⟨type, read⟩ := added.grown.kept id node live.1
    exact ⟨_, ⟨read, live.2⟩, creates⟩

theorem carries_replace_all_uses (graph : Graph) (id value : NodeId) : Carries graph (some id) (graph.replaceAllUses id value) := by
  refine carries_same _ (fun mirrored => graph.replace_all_uses_mirrored mirrored id value) (fun user node live _ => ?_)
    fun user node live _ => ?_
  · obtain ⟨former, read⟩ := graph.node_of_lt user (by
      rw [← graph.replace_all_uses_size id value]
      exact Graph.node_lt _ live.1)
    obtain ⟨inputs, found, kept, _⟩ := graph.replace_all_uses_keeps id value read
    cases found.symm.trans live.1
    refine ⟨former, ⟨read, live.2⟩, rfl, fun _ source edge _ outside => kept _ source edge ?_⟩
    rintro rfl
    exact outside rfl
  · obtain ⟨inputs, found, _⟩ := graph.replace_all_uses_keeps id value live.1
    exact ⟨_, ⟨found, live.2⟩, rfl⟩

section

variable {id value effect : NodeId} {own : Node} (control : Option NodeId) (mirrored : old.Mirrored)
  (read : old.node? id = some own) (creates : own.op.isCreation) (valueStays : old.bypasses id value = false)
  (effectStays : old.bypasses id effect = false) (run : old.replaceWithValue id value (some effect) control = .ok new)

include mirrored read creates valueStays effectStays run

theorem success_redirected {user : NodeId} {former node : Node} (live : old.Live user former)
    (success : former.op = .control .ifSuccess) (after : new.Live user node) {source : NodeId}
    (edge : former.inputs[0]? = some source) :
    source ≠ id ∧ (old.bypasses id source = false → node.inputs[0]? = some source) := by
  have controls : 0 < own.op.layout.controls := by
    rw [(creation_layout own.op creates).2.2.1]
    exact one_pos
  have self : old.bypasses id id = false := by
    by_contra bypassed
    rw [(Graph.bypasses_live read (Bool.eq_true_of_not_eq_false bypassed)).2] at creates
    cases creates
  obtain ⟨_, _, diverted⟩ := Graph.replace_with_value_diverted valueStays effectStays mirrored self read controls run
  have stays : old.bypasses id user = false := by
    by_contra bypassed
    obtain ⟨next, found, dead⟩ := diverted.gone user (Bool.eq_true_of_not_eq_false bypassed)
    cases found.symm.trans after.1
    rw [after.2] at dead
    cases dead
  have apart : source ≠ id := by
    rintro rfl
    rw [(Graph.bypasses_iff old source user).mpr ⟨former, live, success, List.mem_of_getElem? edge⟩] at stays
    cases stays
  refine ⟨apart, fun unbypassed => ?_⟩
  obtain ⟨next, found, _, _, inputs⟩ := diverted.kept user former live.1 stays
  cases found.symm.trans after.1
  rw [inputs, List.getElem?_mapIdx, edge]
  simp [Graph.diverted, unbypassed, apart]

theorem carries_redirected : Carries old (some id) new := by
  have rewired := Graph.replace_with_value_rewired valueStays effectStays run
  refine carries_same _ (fun _ => yields_ok _ _ (old.replace_with_value_mirrored mirrored id value _ control) run)
    (fun user node live _ => ?_) fun user node live throws => ?_
  · obtain ⟨former, before, op⟩ := rewired.only user node live
    refine ⟨former, before, op.symm, fun resumes source edge throws outside => ?_⟩
    have unbypassed := old.throws_unbypassed id throws
    by_cases success : former.op = .control .ifSuccess
    · rw [op, success] at edge ⊢
      exact (success_redirected control mirrored read creates valueStays effectStays run before success live edge).2 unbypassed
    · obtain ⟨next, there, _, _, edges⟩ := rewired.kept user former before.1 success
      cases live.1.symm.trans there
      rcases edges _ source edge unbypassed with kept | ⟨rfl, _⟩
      · exact kept
      · exact absurd rfl outside
  · obtain ⟨next, there, op, dead, _⟩ := rewired.kept user node live.1 (by
      intro success
      rw [success] at throws
      cases throws)
    exact ⟨next, ⟨there, dead.trans live.2⟩, op⟩

end

-- The creation itself may become anything once it is the hole, and must be able to throw as long as it is not.
theorem carries_here {node next : Node} (mirrored : old.Mirrored → new.Mirrored) (size : new.size = old.size) (elsewhere : ∀ user,
      user ≠ id → ∀ node, old.node? user = some node → ∃ type, new.node? user = some { node with type := type })
    (read : old.node? id = some node) (creates : node.op.isCreation) (here : new.node? id = some next)
    (plain : next.op.resumes = false) (hole : Option NodeId)
    (agree : hole = some id ∨ next.dead = node.dead ∧ next.op.throws) : Carries old hole new := by
  have back : ∀ user node, user ≠ id → new.Live user node →
      ∃ former, old.Live user former ∧ former.op = node.op ∧ former.inputs = node.inputs := by
    intro user after apart live
    obtain ⟨former, there⟩ := old.node_of_lt user (size ▸ new.node_lt live.1)
    obtain ⟨type, again⟩ := elsewhere user apart former there
    cases live.1.symm.trans again
    exact ⟨former, ⟨there, live.2⟩, rfl, rfl⟩
  have forward : ∀ user node, user ≠ id → old.Live user node → ∃ next, new.Live user next ∧ next.op = node.op := by
    intro user before apart live
    obtain ⟨type, there⟩ := elsewhere user apart before live.1
    exact ⟨_, ⟨there, live.2⟩, rfl⟩
  refine ⟨mirrored, fun user after live resumes => ?_, fun user outside => ?_, ?_⟩
  · have apart : user ≠ id := by
      rintro rfl
      cases here.symm.trans live.1
      rw [plain] at resumes
      cases resumes
    obtain ⟨former, before, op, inputs⟩ := back user after apart live
    exact ⟨former, before, op, fun source edge _ _ => inputs ▸ edge⟩
  · by_cases same : user = id
    · subst same
      obtain ⟨dead, throws⟩ := agree.resolve_left outside
      have threw := (node.op.throws_of_creation creates).1
      constructor
      · rintro ⟨after, live, _⟩
        cases here.symm.trans live.1
        exact ⟨node, ⟨read, dead ▸ live.2⟩, threw⟩
      · rintro ⟨before, live, _⟩
        cases read.symm.trans live.1
        exact ⟨next, ⟨here, dead ▸ live.2⟩, throws⟩
    · constructor
      · rintro ⟨after, live, throws⟩
        obtain ⟨former, before, op, _⟩ := back user after same live
        exact ⟨former, before, op ▸ throws⟩
      · rintro ⟨before, live, throws⟩
        obtain ⟨after, there, op⟩ := forward user before same live
        exact ⟨after, there, op ▸ throws⟩
  · rintro user ⟨before, site, live, called⟩
    have apart : user ≠ id := by
      rintro rfl
      cases read.symm.trans live.1
      rw [called] at creates
      cases creates
    obtain ⟨after, there, op⟩ := forward user before apart live
    exact ⟨after, site, there, op.trans called⟩

end

end SeaOfNodes
