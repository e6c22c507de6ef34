import SeaOfNodes.Proofs.Lowering.Accepted
import SeaOfNodes.Proofs.Lowering.Steady

/-! A success projection hangs on a call when all creations are lowered. -/

namespace SeaOfNodes

open List Reducer

section

variable {value effect : NodeId} {origin : Graph} {s t u : Workspace} {id : NodeId} {request : Creation} {creation : Node}

-- Success projections of the creation go away here, and exception projections move on.
theorem projected_redirected {old new : Graph} {control : Option NodeId} (projected : Projected origin none old)
    (read : old.node? id = some creation) (creates : creation.op.isCreation) (valueStays : old.bypasses id value = false)
    (effectStays : old.bypasses id effect = false) (run : old.replaceWithValue id value (some effect) control = .ok new) :
    Projected origin (some id) new := by
  refine projected_widened projected
    (carries_redirected control projected.mirrored read creates valueStays effectStays run) (fun _ _ => nofun) ?_
  intro user former node source live success after edge _ same
  cases same
  exact (success_redirected control projected.mirrored read creates valueStays effectStays run live success after edge).1 rfl

theorem projected_became {old new : Graph} {object : NodeId} (projected : Projected origin (some id) old)
    (read : old.node? id = some creation) (creates : creation.op.isCreation) (closed : Closes old new id object effect) :
    Projected origin none new := by
  obtain ⟨next, here, ends, _⟩ := closed.here creation read
  have carries : Carries old (some id) new :=
    carries_here closed.mirrored closed.size closed.elsewhere read creates here (by rw [ends]; rfl) _ (.inl rfl)
  refine projected_closed (projected_carried projected carries) ?_
  rintro ⟨again, live, throws⟩
  cases here.symm.trans live.1
  rw [ends] at throws
  cases throws

theorem projected_killed {old new : Graph} (projected : Projected origin (some id) old) (read : old.node? id = some creation)
    (creates : creation.op.isCreation) (run : (old.replaceAllUses id value).kill id = .ok new) :
    Projected origin none new := by
  obtain ⟨inputs, found, _⟩ := old.replace_all_uses_keeps id value read
  have killed := yields_ok _ _ ((old.replaceAllUses id value).kill_yields id _ found) run
  have carries : Carries (old.replaceAllUses id value) (some id) new :=
    carries_here killed.mirrored killed.size (fun user apart node there => ⟨node.type, (killed.elsewhere user apart).trans there⟩)
      found creates killed.here (creation.op.throws_of_creation creates).2 _ (.inl rfl)
  refine projected_closed (projected_carried (projected_carried projected (carries_replace_all_uses old id value)) carries) ?_
  rintro ⟨again, live, _⟩
  cases killed.here.symm.trans live.1
  cases live.2

theorem execute_projected {reducer : Reducer} {plan : Plan} {limit : UInt32} {again : NodeId} {outcome : Reduction}
    (projected : Projected origin none s.graph) (tidy : plan.Tidy False s.graph id) (created : s.graph.node? id = some creation)
    (asked : creation.op = .create request) (run : plan.execute limit id s = .ok outcome t)
    (settled : reducer.settle id outcome t = .ok again u) : Projected origin none u.graph := by
  obtain ⟨progress, a, w, mades, nodes, found, whole, done, laid, ends⟩ := execute_lays False.elim run
  obtain ⟨next, there, same⟩ := adds_kept whole created
  rw [asked] at same
  have stays := made_stays request next there same plan tidy mades progress nodes a.effect done laid
  have built := projected_carried projected (carries_adds whole stays none)
  have creates : next.op.isCreation := by rw [same]; rfl
  cases ends with
  | become graph relaxed finished =>
    have unbypassed := creation_unbypassed there same
    have detached := projected_redirected built there creates unbypassed unbypassed relaxed
    obtain ⟨former, kept, op, _⟩ := (Graph.replace_with_value_rewired unbypassed unbypassed relaxed).kept id next there
      (by rw [same]; exact nofun)
    have became := projected_became detached kept (by rw [op]; exact creates) (finish_as_closes found finished)
    rw [(settle_changed reducer id again t u settled).2]
    exact became
  | replace value x finished replaced =>
    obtain ⟨last, has⟩ := finish_adds found finished
    have ending := x.graph.has_performs _ has
    have finished := projected_carried built (carries_adds last (forall_mem_singleton.mpr ⟨_, ending, rfl⟩) none)
    obtain ⟨type, there⟩ := last.grown.kept id next there
    obtain ⟨apart, unbypassed⟩ := Graph.stays_apart request _ there same ending rfl
    have detached := projected_redirected finished there creates unbypassed unbypassed replaced
    obtain ⟨former, kept, op, _⟩ := (Graph.replace_with_value_rewired unbypassed unbypassed replaced).kept id _ there
      (by rw [same]; exact nofun)
    rcases (settle_replaced reducer id again t u settled).2 with ⟨same, _⟩ | ⟨_, killed⟩
    · exact absurd same apart
    · exact projected_killed detached kept (by rw [op]; exact creates) killed

theorem inline_projected (c : CreationContext) (old new : Graph) (rewritten : Progresses [.inlineCreation c] old new)
    (projected : Projected origin none old) : Projected origin none new := by
  obtain ⟨id, again, reducer, listed, s, t, u, outcome, rfl, _, changed, run, settled, rfl⟩ := rewritten
  cases mem_singleton.mp listed
  obtain ⟨plan, request, creation, _, tidy, created, asked, executed⟩ := reduce_executes run changed
  exact execute_projected projected tidy created asked executed settled

end

section

variable {origin : Graph}

theorem projected_called {old new : Graph} {id : NodeId} (projected : Projected origin none old) (called : BecomesCall old id new) :
    Projected origin none new := by
  obtain ⟨middle, node, site, inputs, added, live, creates, edited⟩ := called
  have carries : Carries middle none new :=
    carries_here edited.mirrored edited.size (fun user apart node there => ⟨node.type, (edited.elsewhere user apart).trans there⟩)
      live.1 creates edited.here rfl none (.inr ⟨rfl, rfl⟩)
  exact projected_carried (projected_carried projected (carries_adds added (by rintro _ ⟨⟩) none)) carries

theorem call_projected (heap : Snapshot) (old new : Graph) (rewritten : Progresses [.creationCall heap] old new)
    (projected : Projected origin none old) : Projected origin none new := by
  obtain ⟨id, again, reducer, listed, s, t, u, outcome, rfl, lives, changed, run, settled, rfl⟩ := rewritten
  cases mem_singleton.mp listed
  rcases CreationCall.reduce_makes_call lives run with ⟨same, _⟩ | ⟨rfl, called⟩
  · exact absurd same changed
  · rw [(settle_changed _ id again t u settled).2]
    exact projected_called projected called

end

section

theorem projected_begins (graph : Graph) (mirrored : graph.Mirrored)
    (hung : ∀ id node, graph.Live id node → node.op.resumes → ∃ source, graph.controlInput id = .ok source ∧ graph.Throws source) :
    Projected graph none graph where
  mirrored := mirrored
  successes id node live success := by
    have resumes : node.op.resumes := by rw [success]; rfl
    obtain ⟨source, input, throws⟩ := hung id node live resumes
    have edge := (graph.control_input_iff live resumes).mp input
    rw [success] at edge
    exact ⟨source, edge, throws, nofun⟩
  exceptions id node live catches := by
    have resumes : node.op.resumes := by rw [catches]; rfl
    obtain ⟨source, input, throws⟩ := hung id node live resumes
    have edge := (graph.control_input_iff live resumes).mp input
    rw [catches] at edge
    exact ⟨source, input, throws, fun _ _ => edge⟩
  calls _ called := called

theorem lower_creations_projected {c : CreationContext} {origin : Graph} {s t : Workspace} {stats : ReductionStats}
    (projected : Projected origin none s.graph) (run : lowerCreations c s = .ok stats t) :
    Projected origin none t.graph ∧ ∀ id, t.graph.pending id = false := by
  obtain ⟨inline, u, first, run⟩ := runs_bind.mp run
  obtain ⟨calls, v, second, run⟩ := runs_bind.mp run
  obtain ⟨_, w, noted, run⟩ := runs_bind.mp run
  obtain rfl := Build.runs_note.mp noted
  cases run
  have inlined := run_course (forall_mem_singleton.mpr (inline_steady c)) first
  have called := run_course (forall_mem_singleton.mpr (call_steady c.heap)) second
  have expanded := course_keeps (inline_projected c) inlined projected
  refine ⟨course_keeps (call_projected c.heap) called expanded, fun id => Bool.eq_false_iff.mpr fun waits => ?_⟩
  obtain ⟨node, live, _⟩ := (v.graph.pending_iff id).mp waits
  have idle := (call_refuses_iff c.heap ⟨node, live⟩).mp (calls_refused c.heap second id ⟨node, live⟩)
  rw [waits] at idle
  cases idle

theorem projections_follow_calls (c : CreationContext) (s t : Workspace) (stats : ReductionStats) (mirrored : s.graph.Mirrored)
    (hung : ∀ id node, s.graph.Live id node → node.op.resumes = true →
      ∃ source, s.graph.controlInput id = .ok source ∧ s.graph.Throws source)
    (run : lowerCreations c s = .ok stats t) :
    (∀ id node, t.graph.Live id node → node.op = .control .ifSuccess →
      ∃ source, t.graph.controlInput id = .ok source ∧ t.graph.Calls source) ∧
    ∀ id node, t.graph.Live id node → node.op = .control .ifException → ∃ source, s.graph.controlInput id = .ok source ∧
        (t.graph.controlInput id = .ok source ∧ t.graph.Calls source ∨
          s.graph.pending source = true ∧ ¬ t.graph.Calls source) := by
  obtain ⟨projected, done⟩ := lower_creations_projected (projected_begins s.graph mirrored hung) run
  have calls : ∀ source, t.graph.Throws source → t.graph.Calls source := by
    intro source throws
    refine (t.graph.throws_iff.mp throws).resolve_right ?_
    rw [done source]
    exact Bool.false_ne_true
  constructor
  · intro id node live success
    obtain ⟨source, edge, throws, _⟩ := projected.successes id node live success
    have resumes : node.op.resumes = true := by rw [success]; rfl
    exact ⟨source, (t.graph.control_input_iff live resumes).mpr (by rw [success]; exact edge), calls source throws⟩
  · intro id node live catches
    obtain ⟨source, input, able, follows⟩ := projected.exceptions id node live catches
    have resumes : node.op.resumes = true := by rw [catches]; rfl
    refine ⟨source, input, ?_⟩
    by_cases called : t.graph.Calls source
    · have edge := follows (t.graph.throws_iff.mpr (.inl called)) nofun
      exact .inl ⟨(t.graph.control_input_iff live resumes).mpr (by rw [catches]; exact edge), called⟩
    · -- Calls are never given up, so that what threw at first was a creation.
      have waits := (s.graph.throws_iff.mp able).resolve_left fun before => called (projected.calls source before)
      exact .inr ⟨waits, called⟩

def Graph.hangs (graph : Graph) : Bool :=
  graph.liveEntries.all fun entry => !entry.2.op.resumes || match graph.controlInput entry.1 with
    | .ok source => (graph.node? source).any fun node => !node.dead && node.op.throws
    | .error _ => false

theorem hangs_check (graph : Graph) (hangs : graph.hangs) (id : NodeId) (node : Node) (live : graph.Live id node)
    (resumes : node.op.resumes) : ∃ source, graph.controlInput id = .ok source ∧ graph.Throws source := by
  have entry := all_eq_true.mp hangs (id, node) (graph.mem_live_entries.mpr live)
  rw [resumes, Bool.not_true, Bool.false_or] at entry
  cases input : graph.controlInput id with
  | error fault =>
    rw [input] at entry
    cases entry
  | ok source =>
    rw [input] at entry
    dsimp only at entry
    rw [Option.any_eq_true] at entry
    obtain ⟨found, read, holds⟩ := entry
    simp only [Bool.and_eq_true, Bool.not_eq_true'] at holds
    exact ⟨source, rfl, found, ⟨read, holds.1⟩, holds.2⟩

def caughtCreations : List Edit :=
  [.constant (.constant (.heap Root.undefined)), .addNode (.create .object) [2, 2, 2, 2, 0, 0] none,
   .addNode (.control .ifSuccess) [3] none, .addNode (.control .ifException) [3, 3] none,
   .addNode (.create .iterResult) [3, 2, 2, 3, 4] none, .addNode (.control .ifSuccess) [6] none,
   .addNode (.control .ifException) [6, 6] none, .addNode (.control (.ret 1)) [2, 6, 6, 7] none,
   .addNode (.control .throw) [5, 5] none, .addNode (.control .throw) [8, 8] none,
   .mergeToEnd 9, .mergeToEnd 10, .mergeToEnd 11]

def Graph.liveAs (graph : Graph) (id : NodeId) (op : Operator) : Bool :=
  (graph.node? id).any fun node => !node.dead && decide (node.op = op)

theorem live_as_iff (graph : Graph) (id : NodeId) (op : Operator) :
    graph.liveAs id op ↔ ∃ node, graph.Live id node ∧ node.op = op := by
  rw [Graph.liveAs, Option.any_eq_true]
  simp only [Bool.and_eq_true, Bool.not_eq_true', decide_eq_true_eq, Graph.Live, and_assoc]

theorem caught_creations_projected : (Graph.built caughtCreations).hangs = true ∧
    ∃ stats t, lowerCreations .initial (.recording (.built caughtCreations)) = .ok stats t ∧
      (t.graph.liveAs 4 (.control .ifSuccess) = true ∧ ∃ source, t.graph.controlInput 4 = .ok source ∧ t.graph.Calls source) ∧
      ∀ id ∈ [5, 8], t.graph.liveAs id (.control .ifException) = true ∧
        ∃ source, (Graph.built caughtCreations).controlInput id = .ok source ∧
          (t.graph.controlInput id = .ok source ∧ t.graph.Calls source ∨
            (Graph.built caughtCreations).pending source = true ∧ ¬ t.graph.Calls source) := by
  have hangs : (Graph.built caughtCreations).hangs = true := by decide +kernel
  have mirrored := built_mirrored caughtCreations
  obtain ⟨stats, t, run, checks⟩ := lowered_check .initial (.recording (.built caughtCreations))
    (fun t => t.graph.liveAs 4 (.control .ifSuccess) && [5, 8].all fun id => t.graph.liveAs id (.control .ifException))
    (by decide +kernel)
  generalize Graph.built caughtCreations = graph at *
  obtain ⟨succeeds, catches⟩ := Bool.and_eq_true_iff.mp checks
  obtain ⟨successes, exceptions⟩ := projections_follow_calls .initial (.recording graph) t stats mirrored (hangs_check graph hangs) run
  refine ⟨hangs, stats, t, run, ⟨succeeds, ?_⟩, fun id listed => ?_⟩
  · obtain ⟨node, live, op⟩ := (live_as_iff _ _ _).mp succeeds
    exact successes 4 node live op
  · have caught := all_eq_true.mp catches id listed
    obtain ⟨node, live, op⟩ := (live_as_iff _ _ _).mp caught
    exact ⟨caught, exceptions id node live op⟩

def handledResult : List Edit :=
  [.constant (.constant (.heap Root.undefined)), .addNode (.create .iterResult) [2, 2, 2, 0, 0] none,
   .addNode (.control .ifSuccess) [3] none, .addNode (.control .ifException) [3, 3] none,
   .addNode (.control (.ret 1)) [2, 3, 3, 4] none, .addNode (.control .throw) [5, 5] none, .mergeToEnd 6, .mergeToEnd 7]

theorem handler_left_on_start : ((Graph.built handledResult).verify = .ok () ∧
      ∀ id node, (Graph.built handledResult).Live id node → node.op.resumes = true →
        ∃ source, (Graph.built handledResult).controlInput id = .ok source ∧ (Graph.built handledResult).Throws source) ∧
    ∃ stats t, lowerCreations .initial (.recording (.built handledResult)) = .ok stats t ∧ t.graph.verify = .ok () ∧
      (∃ node, t.graph.Live 5 node ∧ node.op = .control .ifException) ∧ t.graph.controlInput 5 = .ok 0 ∧ ¬ t.graph.Calls 0 := by
  refine ⟨⟨ok_of_to_option _ _ (by decide +kernel), hangs_check _ (by decide +kernel)⟩, ?_⟩
  obtain ⟨stats, t, run, checks⟩ := lowered_check .initial (.recording (.built handledResult))
    (fun t => decide (t.graph.verify.toOption = some ()) && t.graph.liveAs 5 (.control .ifException) &&
      decide ((t.graph.controlInput 5).toOption = some 0) && t.graph.liveAs 0 (.control .start)) (by decide +kernel)
  simp only [Bool.and_eq_true, decide_eq_true_eq, live_as_iff] at checks
  obtain ⟨⟨⟨verified, catches⟩, input⟩, first, begins, start⟩ := checks
  refine ⟨stats, t, run, ok_of_to_option _ _ verified, catches, ok_of_to_option _ _ input, ?_⟩
  rintro ⟨node, site, live, called⟩
  rw [t.graph.live_unique begins live, called] at start
  cases start

end

end SeaOfNodes
