import SeaOfNodes.Proofs.Graph.Rewired
import SeaOfNodes.Proofs.Lowering.Driver

/-! The worklist of the driver, whatever the reducers. -/

namespace SeaOfNodes

open List

variable {id : NodeId} {graph : Graph}

namespace Graph

structure Rests (old new : Graph) : Prop where
  size : old.size ≤ new.size
  dead : ∀ id, id < old.size → new.HasLive id → old.HasLive id

theorem mem_live_ids (graph : Graph) (id : NodeId) : id ∈ graph.liveIds ↔ graph.HasLive id := by
  rw [liveIds, mem_filter, is_live_iff, and_iff_right_of_imp]
  rintro ⟨node, live⟩
  exact mem_range.mpr (graph.node_lt live.1)

theorem live_inside (graph : Graph) (lives : graph.HasLive id) : id < graph.size := by
  obtain ⟨node, live⟩ := lives
  exact graph.node_lt live.1

section

variable {old new last : Graph}

theorem rests_refl : Rests graph graph := ⟨le_rfl, fun _ _ lives => lives⟩

theorem rests_trans (first : Rests old new) (second : Rests new last) : Rests old last where
  size := first.size.trans second.size
  dead id inside lives := first.dead id inside (second.dead id (inside.trans_le first.size) lives)

theorem rests_extends (grown : Extends old new) : Rests old new where
  size := grown.size
  dead id inside lives := by
    obtain ⟨node, live⟩ := lives
    obtain ⟨former, read, _, dead⟩ := extends_back grown live.1 inside
    exact ⟨former, read, dead ▸ live.2⟩

theorem rests_edited {next : Node} (edited : Edited old new id next) (still : old.HasLive id ∨ next.dead) : Rests old new where
  size := edited.size.symm.le
  dead other inside lives := by
    obtain ⟨node, live⟩ := lives
    by_cases same : other = id
    · subst same
      refine still.resolve_right fun dead => ?_
      have gone := live.2
      rw [Option.some.inj (live.1.symm.trans edited.here), dead] at gone
      cases gone
    · exact ⟨node, (live_elsewhere edited same).mp live⟩

theorem rests_replace_all_uses (graph : Graph) (gone target : NodeId) : Rests graph (graph.replaceAllUses gone target) where
  size := le_of_eq (graph.replace_all_uses_size gone target).symm
  dead id inside lives := by
    obtain ⟨node, live⟩ := lives
    obtain ⟨former, read⟩ := graph.node_of_lt id inside
    obtain ⟨inputs, found, _⟩ := graph.replace_all_uses_keeps gone target read
    cases found.symm.trans live.1
    exact ⟨former, read, live.2⟩

end

end Graph

namespace Reducer

variable {rest worklist : List NodeId} {queued : BitSet} {s t : Workspace}

section

variable (reducer : Reducer) (id again : NodeId) (t u : Workspace)

theorem settle_changed {changed : NodeId} (run : reducer.settle id (.changed changed) t = .ok again u) :
    changed = again ∧ u.graph = t.graph := by
  obtain ⟨_, _, read, run⟩ := runs_bind.mp run
  obtain ⟨_, rfl⟩ := Build.runs_query.mp read
  obtain ⟨_, _, noted, run⟩ := runs_bind.mp run
  obtain rfl := Build.runs_note.mp noted
  obtain ⟨same, rfl⟩ := runs_pure.mp run
  exact ⟨same, rfl⟩

theorem settle_replaced {value : NodeId} (run : reducer.settle id (.replaced value) t = .ok again u) :
    value = again ∧ (value = id ∧ u.graph = t.graph ∨ value ≠ id ∧ (t.graph.replaceAllUses id value).kill id = .ok u.graph) := by
  obtain ⟨_, _, noted, run⟩ := runs_bind.mp run
  obtain rfl := Build.runs_note.mp noted
  dsimp only at run
  by_cases apart : value ≠ id
  · rw [if_pos apart] at run
    obtain ⟨_, _, killed, run⟩ := runs_bind.mp run
    obtain ⟨graph, done, rfl⟩ := Build.runs_change.mp killed
    obtain ⟨same, rfl⟩ := runs_pure.mp run
    exact ⟨same, .inr ⟨apart, done⟩⟩
  · rw [if_neg apart] at run
    obtain ⟨same, rfl⟩ := runs_pure.mp run
    exact ⟨same, .inl ⟨not_not.mp apart, rfl⟩⟩

end

def requeue (old new : Graph) (again : NodeId) (rest : List NodeId) (queued : BitSet) : List NodeId × BitSet :=
  enqueue (again :: (List.range (new.size - old.size)).map (old.size + ·)) rest queued

-- All that can become of the first node of a worklist: it is dead, or refused, or a reducer succeeds on it.
theorem sweep_cases {reducers : List Reducer} {resume : Option (List NodeId → BitSet → ReductionStats → Build ReductionStats)}
    {stats result : ReductionStats} (run : sweep reducers resume (id :: rest) queued stats s = .ok result t) :
    (¬ s.graph.HasLive id ∧ sweep reducers resume rest (queued.erase id) stats s = .ok result t) ∨
    (s.graph.HasLive id ∧ ∃ u, firstSuccess reducers id 0 s = .ok none u ∧
      sweep reducers resume rest (queued.erase id) { stats with visited := stats.visited + 1 } u = .ok result t) ∨
    (s.graph.HasLive id ∧ ∃ index reducer reduction u again v work,
      firstSuccess reducers id 0 s = .ok (some (index, reducer, reduction)) u ∧ reducer.settle id reduction u = .ok again v ∧
      resume = some work ∧ work (requeue s.graph v.graph again rest (queued.erase id)).1
        (requeue s.graph v.graph again rest (queued.erase id)).2
        ({ stats with visited := stats.visited + 1 }.count index reduction) v = .ok result t) := by
  rw [sweep] at run
  obtain ⟨_, _, first, run⟩ := runs_bind.mp run
  obtain ⟨rfl, rfl⟩ := runs_get.mp first
  obtain ⟨_, _, second, run⟩ := runs_bind.mp run
  obtain ⟨rfl, rfl⟩ := runs_get.mp second
  by_cases alive : s.graph.isLive id
  · rw [if_pos alive] at run
    have lives := (s.graph.is_live_iff id).mp alive
    obtain ⟨found, u, looked, run⟩ := runs_bind.mp run
    cases found with
    | none => exact .inr (.inl ⟨lives, u, looked, run⟩)
    | some success =>
      obtain ⟨index, reducer, reduction⟩ := success
      cases resume with
      | none => cases run
      | some work =>
        obtain ⟨again, v, settled, run⟩ := runs_bind.mp run
        obtain ⟨_, _, read, run⟩ := runs_bind.mp run
        obtain ⟨rfl, rfl⟩ := runs_get.mp read
        exact .inr (.inr ⟨lives, index, reducer, reduction, u, again, v, work, looked, settled, rfl, run⟩)
  · rw [if_neg alive] at run
    exact .inl ⟨fun lives => alive ((s.graph.is_live_iff id).mpr lives), run⟩

-- A refusal depends on the graph alone and leaves it as it is. A change answers with the node itself, and no dead node comes back.
structure Steady (reducer : Reducer) : Prop where
  refuses : ∀ (s t : Workspace) (id : NodeId), s.graph.HasLive id → reducer.reduce id s = .ok .unchanged t →
    t.graph = s.graph ∧ ∀ u : Workspace, u.graph = s.graph → ∃ v, reducer.reduce id u = .ok .unchanged v
  changes : ∀ (s t : Workspace) (id again : NodeId), s.graph.HasLive id → reducer.reduce id s = .ok (.changed again) t →
    again = id
  rests : ∀ (s t : Workspace) (id : NodeId) (reduction : Reduction), s.graph.HasLive id →
    reducer.reduce id s = .ok reduction t → s.graph.Rests t.graph

section

variable (reducers : List Reducer)

def Refuses (graph : Graph) (id : NodeId) : Prop :=
  ∀ reducer ∈ reducers, ∀ s : Workspace, s.graph = graph → ∃ t, reducer.reduce id s = .ok .unchanged t

-- One success, on `id`, after which `again` goes back on the worklist.
def Rewrites (old new : Graph) (id again : NodeId) : Prop :=
  ∃ reducer ∈ reducers, ∃ (s t u : Workspace) (reduction : Reduction), s.graph = old ∧ old.HasLive id ∧ reduction ≠ .unchanged ∧
    reducer.reduce id s = .ok reduction t ∧ reducer.settle id reduction t = .ok again u ∧ u.graph = new

def Progresses (old new : Graph) : Prop := ∃ id again, Rewrites reducers old new id again

-- A success that does not put `id` back, neither as its answer nor as a node that appeared.
def Overlooks (id : NodeId) (old new : Graph) : Prop :=
  ∃ other again, Rewrites reducers old new other again ∧ other ≠ id ∧ again ≠ id ∧ id < old.size

def Passed (start graph : Graph) (id : NodeId) : Prop :=
  ∃ past : Graph, Relation.ReflTransGen (Progresses reducers) start past ∧ past.HasLive id ∧ Refuses reducers past id ∧
    Relation.ReflTransGen (Overlooks reducers id) past graph

inductive Course : List NodeId → BitSet → Graph → Nat → Graph → Prop
  | ends (queued : BitSet) (graph : Graph) : Course [] queued graph 0 graph
  | passes (id : NodeId) (rest : List NodeId) (queued : BitSet) (graph final : Graph) (successes : Nat)
      (refused : graph.HasLive id → Refuses reducers graph id) (goes : Course rest (queued.erase id) graph successes final) :
      Course (id :: rest) queued graph successes final
  | rewrites (id again : NodeId) (rest : List NodeId) (queued : BitSet) (graph next final : Graph) (successes : Nat)
      (rewritten : Rewrites reducers graph next id again)
      (goes : Course (requeue graph next again rest (queued.erase id)).1 (requeue graph next again rest (queued.erase id)).2 next
        successes final) :
      Course (id :: rest) queued graph (successes + 1) final

def Charted (work : List NodeId → BitSet → ReductionStats → Build ReductionStats) : Prop :=
  ∀ worklist queued stats result s t, work worklist queued stats s = .ok result t →
    ∃ successes, Course reducers worklist queued s.graph successes t.graph ∧ result.reductions = stats.reductions + successes

-- What the driver would have to put back otherwise: nodes that a success elsewhere makes reducible.
def Confined : Prop :=
  ∀ old new other again id, Rewrites reducers old new other again → other ≠ id → again ≠ id → old.HasLive id → new.HasLive id →
    Refuses reducers old id → Refuses reducers new id

-- The queued bits matter because a node that is marked is not put back: it must be waiting already.
structure Standing (start : Graph) (worklist : List NodeId) (queued : BitSet) (graph : Graph) : Prop where
  reached : Relation.ReflTransGen (Progresses reducers) start graph
  listed : ∀ id, queued.contains id = true → id ∈ worklist
  passed : ∀ id, graph.HasLive id → id ∈ worklist ∨ Passed reducers start graph id

end

-- New entries are collected in reverse.
def enqueueOne (state : List NodeId × BitSet) (id : NodeId) : List NodeId × BitSet :=
  if state.2.contains id then state else (id :: state.1, state.2.insert id)

theorem enqueue_eq {ids : List NodeId} : enqueue ids worklist queued =
    (worklist ++ (ids.foldl enqueueOne ([], queued)).1.reverse, (ids.foldl enqueueOne ([], queued)).2) := rfl

-- Only ids that are already waiting are left out.
theorem enqueue_all_members (worklist ids : List NodeId) (state : List NodeId × BitSet)
    (listed : ∀ id, state.2.contains id → id ∈ worklist ∨ id ∈ state.1) :
    (∀ id, id ∈ worklist ∨ id ∈ (ids.foldl enqueueOne state).1 ↔ (id ∈ worklist ∨ id ∈ state.1) ∨ id ∈ ids) ∧
      ∀ id, (ids.foldl enqueueOne state).2.contains id → id ∈ worklist ∨ id ∈ (ids.foldl enqueueOne state).1 := by
  induction ids generalizing state with
  | nil => exact ⟨fun id => by simp, listed⟩
  | cons first rest ih =>
    rw [foldl_cons]
    have step : (∀ id, id ∈ worklist ∨ id ∈ (enqueueOne state first).1 ↔ (id ∈ worklist ∨ id ∈ state.1) ∨ id = first) ∧
        ∀ id, (enqueueOne state first).2.contains id → id ∈ worklist ∨ id ∈ (enqueueOne state first).1 := by
      rw [enqueueOne]
      split
      · rename_i waits
        refine ⟨fun id => (or_iff_left_of_imp ?_).symm, listed⟩
        rintro rfl
        exact listed id waits
      · refine ⟨fun id => by rw [mem_cons, or_assoc, or_comm (a := id = first)], fun id waits => ?_⟩
        rcases (state.2.contains_insert first id).mp waits with rfl | before
        · exact .inr mem_cons_self
        · exact (listed id before).imp_right (mem_cons_of_mem first)
    obtain ⟨members, later⟩ := ih (enqueueOne state first) step.2
    refine ⟨fun id => ?_, later⟩
    rw [members, step.1, or_assoc, ← mem_cons]

theorem enqueue_members (ids : List NodeId) (listed : ∀ id, queued.contains id → id ∈ worklist) :
    (∀ id, id ∈ (enqueue ids worklist queued).1 ↔ id ∈ worklist ∨ id ∈ ids) ∧
      ∀ id, (enqueue ids worklist queued).2.contains id → id ∈ (enqueue ids worklist queued).1 := by
  obtain ⟨members, later⟩ := enqueue_all_members worklist ids ([], queued) fun id waits => .inl (listed id waits)
  simp only [enqueue_eq, mem_append, mem_reverse]
  refine ⟨fun id => (members id).trans ?_, later⟩
  rw [or_iff_left (not_mem_nil : id ∉ [])]

section

variable {start final : Graph} {successes : Nat} {reducers : List Reducer} (steady : ∀ reducer ∈ reducers, reducer.Steady)

theorem settle_rests {reducer : Reducer} {reduction : Reduction} {again : NodeId} {u : Workspace} (inside : id < t.graph.size)
    (run : reducer.settle id reduction t = .ok again u) :
    t.graph.Rests u.graph ∧ (again = id ∨ reduction = .changed again ∨ ¬ u.graph.HasLive id) := by
  cases reduction with
  | unchanged =>
    cases run
    exact ⟨t.graph.rests_refl, .inl rfl⟩
  | changed other =>
    obtain ⟨rfl, same⟩ := settle_changed reducer id again t u run
    rw [same]
    exact ⟨t.graph.rests_refl, .inr (.inl rfl)⟩
  | replaced value =>
    obtain ⟨rfl, ⟨rfl, same⟩ | ⟨_, killed⟩⟩ := settle_replaced reducer id again t u run
    · rw [same]
      exact ⟨t.graph.rests_refl, .inl rfl⟩
    obtain ⟨node, read⟩ := (t.graph.replaceAllUses id value).node_of_lt id (by
      rw [Graph.replace_all_uses_size]
      exact inside)
    have edited := yields_ok _ _ ((t.graph.replaceAllUses id value).kill_yields id node read) killed
    have rests := Graph.rests_trans (t.graph.rests_replace_all_uses id value) (Graph.rests_edited edited (.inr rfl))
    refine ⟨rests, .inr (.inr ?_)⟩
    rintro ⟨after, live⟩
    rw [Option.some.inj (live.1.symm.trans edited.here)] at live
    cases live.2

theorem listed_erase (listed : ∀ other, queued.contains other → other ∈ id :: rest) (other : NodeId)
    (waits : (queued.erase id).contains other) : other ∈ rest := by
  obtain ⟨before, apart⟩ := (queued.contains_erase id other).mp waits
  exact (mem_cons.mp (listed other before)).resolve_left apart

theorem standing_passes (standing : Standing reducers start (id :: rest) queued graph)
    (refused : graph.HasLive id → Refuses reducers graph id) :
    Standing reducers start rest (queued.erase id) graph where
  reached := standing.reached
  listed := listed_erase standing.listed
  passed other lives := by
    rcases standing.passed other lives with waits | passed
    · rcases mem_cons.mp waits with rfl | later
      · exact .inr ⟨graph, standing.reached, lives, refused lives, .refl⟩
      · exact .inl later
    · exact .inr passed

theorem course_idle (course : Course reducers worklist queued graph 0 final) (waits : id ∈ worklist) (lives : graph.HasLive id) :
    Refuses reducers graph id := by
  generalize none : 0 = successes at course
  induction course with
  | ends queued graph => cases waits
  | passes other rest queued graph final successes refused goes ih =>
    rcases mem_cons.mp waits with rfl | later
    · exact refused lives
    · exact ih later lives none
  | rewrites other again rest queued graph next final successes rewritten goes ih => cases none

theorem course_keeps {holds : Graph → Prop} (keeps : ∀ old new, Progresses reducers old new → holds old → holds new)
    (course : Course reducers worklist queued graph successes final) (begins : holds graph) : holds final := by
  induction course with
  | ends queued graph => exact begins
  | passes id rest queued graph final successes refused goes ih => exact ih begins
  | rewrites id again rest queued graph next final successes rewritten goes ih =>
    exact ih (keeps graph next ⟨id, again, rewritten⟩ begins)

include steady

theorem rewrites_rests {old new : Graph} {again : NodeId} (rewritten : Rewrites reducers old new id again) :
    old.Rests new ∧ (again = id ∨ ¬ new.HasLive id) := by
  obtain ⟨reducer, listed, s, t, u, reduction, rfl, lives, _, reduced, settled, rfl⟩ := rewritten
  have rests := (steady reducer listed).rests s t id reduction lives reduced
  have inside : id < t.graph.size := lt_of_lt_of_le (s.graph.live_inside lives) rests.size
  obtain ⟨more, answer⟩ := settle_rests inside settled
  refine ⟨Graph.rests_trans rests more, ?_⟩
  rcases answer with same | rfl | gone
  · exact .inl same
  · exact .inl ((steady reducer listed).changes s t id again lives reduced)
  · exact .inr gone

theorem first_success_outcome {index : Nat} {found : Option (Nat × Reducer × Reduction)} (lives : s.graph.HasLive id)
    (run : firstSuccess reducers id index s = .ok found t) :
    (found = none ∧ t.graph = s.graph ∧ Refuses reducers s.graph id) ∨
      ∃ place reducer reduction u, found = some (place, reducer, reduction) ∧ reducer ∈ reducers ∧ reduction ≠ .unchanged ∧
        u.graph = s.graph ∧ reducer.reduce id u = .ok reduction t := by
  induction reducers generalizing s index with
  | nil =>
    cases run
    exact .inl ⟨rfl, rfl, by rintro _ ⟨⟩⟩
  | cons reducer rest ih =>
    have here : reducer ∈ reducer :: rest := mem_cons_self
    obtain ⟨reduction, u, reduced, run⟩ := runs_bind.mp run
    cases reduction with
    | unchanged =>
      -- The rest of the reducers see the same graph.
      obtain ⟨same, always⟩ := (steady reducer here).refuses s u id lives reduced
      have others := ih (fun other listed => steady other (mem_cons_of_mem _ listed)) (same ▸ lives) run
      rw [same] at others
      rcases others with ⟨none, kept, refused⟩ | ⟨place, other, reduction, v, some, listed, success⟩
      · exact .inl ⟨none, kept, forall_mem_cons.mpr ⟨always, refused⟩⟩
      · exact .inr ⟨place, other, reduction, v, some, mem_cons_of_mem _ listed, success⟩
    | changed again | replaced value =>
      cases run
      exact .inr ⟨_, reducer, _, s, rfl, here, by rintro ⟨⟩, rfl, reduced⟩

theorem first_success_refused (index : Nat) (lives : s.graph.HasLive id) (refused : Refuses reducers s.graph id) :
    ∃ t, firstSuccess reducers id index s = .ok none t ∧ t.graph = s.graph := by
  induction reducers generalizing s index with
  | nil => exact ⟨s, rfl, rfl⟩
  | cons reducer rest ih =>
    obtain ⟨first, others⟩ := forall_mem_cons.mp refused
    obtain ⟨u, reduced⟩ := first s rfl
    have same := ((steady reducer mem_cons_self).refuses s u id lives reduced).1
    rw [← same] at lives others
    obtain ⟨t, done, kept⟩ := ih (fun other listed => steady other (mem_cons_of_mem _ listed)) (index + 1) lives others
    exact ⟨t, runs_bind.mpr ⟨_, u, reduced, done⟩, kept.trans same⟩

theorem sweep_charted (resume : Option (List NodeId → BitSet → ReductionStats → Build ReductionStats))
    (resumes : ∀ work, resume = some work → Charted reducers work) : Charted reducers (sweep reducers resume) := by
  intro worklist queued stats result s t run
  induction worklist generalizing queued stats s with
  | nil =>
    obtain ⟨rfl, rfl⟩ := runs_pure.mp run
    exact ⟨0, .ends queued s.graph, rfl⟩
  | cons id rest ih =>
    rcases sweep_cases run with
      ⟨gone, run⟩ | ⟨lives, u, looked, run⟩ | ⟨lives, index, reducer, reduction, u, again, v, work, looked, settled, resumed, run⟩
    · obtain ⟨successes, course, counted⟩ := ih _ _ s run
      exact ⟨successes, .passes id rest queued _ _ successes (fun lives => absurd lives gone) course, counted⟩
    · obtain ⟨successes, course, counted⟩ := ih _ _ u run
      rcases first_success_outcome steady lives looked with ⟨_, same, refused⟩ | ⟨_, _, _, _, impossible, _⟩
      · rw [same] at course
        exact ⟨successes, .passes id rest queued _ _ successes (fun _ => refused) course, counted⟩
      · cases impossible
    · obtain ⟨successes, course, counted⟩ := resumes work resumed _ _ _ result v t run
      rcases first_success_outcome steady lives looked with
        ⟨impossible, _⟩ | ⟨_, _, _, before, success, listed, changed, same, reduced⟩
      · cases impossible
      · cases success
        rw [reductions_count _ index changed] at counted
        refine ⟨successes + 1, .rewrites id again rest queued _ v.graph _ successes ?_ course, ?_⟩
        · exact ⟨reducer, listed, before, u, v, reduction, same, lives, changed, reduced, settled, rfl⟩
        · rw [counted, add_assoc, add_comm 1]
          rfl

theorem drain_charted {limit : Nat} : Charted reducers (drain reducers limit) := by
  induction limit with
  | zero => exact sweep_charted steady none (by rintro _ ⟨⟩)
  | succ limit ih =>
    refine sweep_charted steady (some (drain reducers limit)) ?_
    rintro _ ⟨⟩
    exact ih

theorem standing_rewrites {next : Graph} {again : NodeId} (standing : Standing reducers start (id :: rest) queued graph)
    (rewritten : Rewrites reducers graph next id again) :
    Standing reducers start (requeue graph next again rest (queued.erase id)).1
      (requeue graph next again rest (queued.erase id)).2 next := by
  obtain ⟨rests, answer⟩ := rewrites_rests steady rewritten
  obtain ⟨members, listed⟩ := enqueue_members (again :: (range (next.size - graph.size)).map (graph.size + ·))
    (listed_erase standing.listed)
  refine ⟨standing.reached.tail ⟨id, again, rewritten⟩, listed, fun other lives => ?_⟩
  by_cases answered : other = again
  · exact .inl ((members other).mpr (.inr (answered ▸ mem_cons_self)))
  by_cases fresh : graph.size ≤ other
  · -- A node that appeared is waiting.
    have inside := next.live_inside lives
    refine .inl ((members other).mpr (.inr (mem_cons_of_mem _ (mem_map.mpr ⟨other - graph.size, ?_, ?_⟩))))
    · exact mem_range.mpr (Nat.sub_lt_sub_right fresh inside)
    · exact Nat.add_sub_cancel' fresh
  · have inside : other < graph.size := Nat.lt_of_not_le fresh
    have apart : other ≠ id := by
      rintro rfl
      exact answer.elim (fun same => answered same.symm) fun gone => gone lives
    rcases standing.passed other (rests.dead other inside lives) with waits | ⟨past, reached, alive, refused, since⟩
    · exact .inl ((members other).mpr (.inl ((mem_cons.mp waits).resolve_left apart)))
    · refine .inr ⟨past, reached, alive, refused, since.tail ⟨id, again, rewritten, Ne.symm apart, ?_, inside⟩⟩
      exact Ne.symm answered

-- What is live and off the worklist has been passed; in the end nothing is on it.
theorem course_passed (course : Course reducers worklist queued graph successes final)
    (standing : Standing reducers start worklist queued graph) (lives : final.HasLive id) : Passed reducers start final id := by
  induction course with
  | ends queued graph => exact (standing.passed id lives).resolve_left not_mem_nil
  | passes other rest queued graph final successes refused goes ih => exact ih (standing_passes standing refused) lives
  | rewrites other again rest queued graph next final successes rewritten goes ih =>
    exact ih (standing_rewrites steady standing rewritten) lives

theorem sweep_settled (resume : Option (List NodeId → BitSet → ReductionStats → Build ReductionStats)) (worklist : List NodeId)
    (queued : BitSet) (stats : ReductionStats) (settled : ∀ id, s.graph.HasLive id → Refuses reducers s.graph id) :
    ∃ result t, sweep reducers resume worklist queued stats s = .ok result t ∧ result.reductions = stats.reductions := by
  induction worklist generalizing queued stats s with
  | nil => exact ⟨stats, s, rfl, rfl⟩
  | cons id rest ih =>
    by_cases alive : s.graph.isLive id
    · have lives := (s.graph.is_live_iff id).mp alive
      obtain ⟨u, looked, same⟩ := first_success_refused steady 0 lives (settled id lives)
      obtain ⟨result, t, done, counted⟩ := ih (queued.erase id) { stats with visited := stats.visited + 1 } (same ▸ settled)
      refine ⟨result, t, ?_, counted⟩
      rw [sweep]
      refine runs_bind.mpr ⟨s, s, rfl, runs_bind.mpr ⟨s, s, rfl, ?_⟩⟩
      rw [if_pos alive]
      exact runs_bind.mpr ⟨none, u, looked, done⟩
    · obtain ⟨result, t, done, counted⟩ := ih (queued.erase id) stats settled
      refine ⟨result, t, ?_, counted⟩
      rw [sweep]
      refine runs_bind.mpr ⟨s, s, rfl, runs_bind.mpr ⟨s, s, rfl, ?_⟩⟩
      rw [if_neg alive]
      exact done

theorem run_course {stats : ReductionStats} (run : Reducer.run reducers s = .ok stats t) :
    Course reducers s.graph.liveIds (s.graph.liveIds.foldl BitSet.insert BitSet.empty) s.graph stats.reductions t.graph := by
  obtain ⟨_, _, first, run⟩ := runs_bind.mp run
  obtain ⟨rfl, rfl⟩ := runs_get.mp first
  obtain ⟨drained, u, work, run⟩ := runs_bind.mp run
  obtain ⟨_, _, second, run⟩ := runs_bind.mp run
  obtain ⟨rfl, rfl⟩ := runs_get.mp second
  obtain ⟨rfl, rfl⟩ := runs_pure.mp run
  obtain ⟨successes, course, counted⟩ := drain_charted steady _ _ _ drained s u work
  have reported : drained.reductions = successes := counted.trans (zero_add successes)
  exact reported ▸ course

theorem run_passed (s t : Workspace) (stats : ReductionStats) (run : Reducer.run reducers s = .ok stats t) (id : NodeId)
    (lives : t.graph.HasLive id) : Passed reducers s.graph t.graph id := by
  refine course_passed steady (run_course steady run) ⟨.refl, fun other waits => ?_, fun other alive => ?_⟩ lives
  · refine ((BitSet.contains_fold_insert _ other _).mp waits).resolve_right ?_
    simp [BitSet.empty, BitSet.contains, BitSet.word]
  · exact .inl ((s.graph.mem_live_ids other).mpr alive)

theorem passed_refuses (confined : Confined reducers) (passed : Passed reducers start graph id) (lives : graph.HasLive id) :
    Refuses reducers graph id := by
  obtain ⟨past, _, _, refused, since⟩ := passed
  induction since with
  | refl => exact refused
  | tail _ overlooked ih =>
    obtain ⟨other, again, rewritten, apart, unanswered, inside⟩ := overlooked
    have before := (rewrites_rests steady rewritten).1.dead id inside lives
    exact confined _ _ other again id rewritten apart unanswered before lives (ih before)

theorem run_idle_iff (s : Workspace) : (∃ stats t, Reducer.run reducers s = .ok stats t ∧ stats.reductions = 0) ↔
      ∀ id, s.graph.HasLive id → Refuses reducers s.graph id := by
  constructor
  · rintro ⟨stats, t, run, idle⟩ id lives
    have course := run_course steady run
    rw [idle] at course
    exact course_idle course ((s.graph.mem_live_ids id).mpr lives) lives
  · intro settled
    have work : ∀ worklist queued stats, ∃ result t, drain reducers s.graph.size worklist queued stats s = .ok result t ∧
        result.reductions = stats.reductions := by
      intro worklist queued stats
      cases s.graph.size with
      | zero => exact sweep_settled steady none worklist queued stats settled
      | succ limit => exact sweep_settled steady (some (drain reducers limit)) worklist queued stats settled
    obtain ⟨result, t, done, counted⟩ := work s.graph.liveIds (s.graph.liveIds.foldl BitSet.insert BitSet.empty)
      { initialSize := s.graph.size, finalSize := s.graph.size, reducers := reducers.map fun reducer => { name := reducer.name } }
    exact ⟨{ result with finalSize := t.graph.size }, t, runs_bind.mpr ⟨s, s, rfl, runs_bind.mpr
      ⟨result, t, done, rfl⟩⟩, counted⟩

end

end Reducer

end SeaOfNodes
