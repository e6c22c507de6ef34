import SeaOfNodes.Proofs.Lowering.Calls
import SeaOfNodes.Reducer

/-! The driver ends: every success uses up a creation, and none is made on the way. -/

namespace SeaOfNodes

open List SeaOfNodes.Graph

variable {id : NodeId} {s : Workspace} {reduction : Reduction}

namespace Graph

def waiting (graph : Graph) : Finset NodeId := (Finset.range graph.size).filter fun id => graph.pending id = true

theorem mem_waiting (graph : Graph) (id : NodeId) : id ∈ graph.waiting ↔ graph.pending id := by
  rw [waiting, Finset.mem_filter, Finset.mem_range, and_iff_right_of_imp]
  intro waits
  obtain ⟨node, live, _⟩ := (pending_iff graph id).mp waits
  exact node_lt graph live.1

theorem waiting_card_le {graph : Graph} : graph.waiting.card ≤ graph.size := by
  refine (Finset.card_filter_le _ _).trans ?_
  rw [Finset.card_range]

theorem count_creations (graph : Graph) :
    (graph.liveEntries.countP fun entry => entry.2.op.isCreation) = graph.waiting.card := by
  have ids : (graph.liveEntries.filter fun entry => entry.2.op.isCreation).map Prod.fst |>.Nodup :=
    (filter_sublist.map Prod.fst).nodup graph.live_ids_nodup
  have length : (graph.liveEntries.filter fun entry => entry.2.op.isCreation).length =
      ((graph.liveEntries.filter fun entry => entry.2.op.isCreation).map Prod.fst).length := (length_map _).symm
  rw [countP_eq_length_filter, length, ← toFinset_card_of_nodup ids]
  congr 1
  ext id
  rw [mem_toFinset, mem_waiting, pending_iff, mem_map]
  constructor
  · rintro ⟨⟨other, node⟩, member, rfl⟩
    obtain ⟨listed, creates⟩ := mem_filter.mp member
    exact ⟨node, graph.mem_live_entries.mp listed, creates⟩
  · rintro ⟨node, live, creates⟩
    exact ⟨(id, node), mem_filter.mpr ⟨graph.mem_live_entries.mpr live, creates⟩, rfl⟩

end Graph

section

variable {rank : NodeId → Nat}

theorem consumed_card {old new : Graph} (consumed : Consumed rank old new id) (waits : old.pending id) :
    new.waiting.card + 1 = old.waiting.card := by
  have erased : new.waiting = old.waiting.erase id := by
    ext other
    rw [mem_waiting, consumed.pending, Finset.mem_erase, mem_waiting, and_comm]
  rw [erased, Finset.card_erase_add_one ((mem_waiting old id).mpr waits)]

theorem settle_yields (reducer : Reducer) {t : Workspace} (success : Succeeds rank s id reduction t) :
    Build.Yields (reducer.settle id reduction) t fun _ u =>
      Consumed rank s.graph u.graph id ∧ u.journal.mode = s.journal.mode := by
  obtain ⟨mode, success⟩ := success
  cases reduction with
  | unchanged => exact success.elim
  | changed again =>
    refine Build.yields_query_then (op_panics again) fun op _ => ?_
    exact Build.yields_bind t (fun _ u => Consumed rank s.graph u.graph id ∧ u.journal.mode = s.journal.mode) _
      (Build.yields_note t ⟨success, mode⟩) fun _ u both => Build.yields_pure both
  | replaced value =>
    obtain ⟨apart, detached, ⟨node, live⟩, unused, pending⟩ := success
    refine Build.yields_bind t (fun _ u => u.graph = t.graph ∧ u.journal.mode = s.journal.mode) _
      (Build.yields_note t ⟨rfl, mode⟩) ?_
    rintro _ u ⟨same, modeAgain⟩
    obtain ⟨moved, alike⟩ := detached_replace_all_uses detached value unused
    have there := t.graph.replace_all_uses_node detached.mirrored id value id
    rw [live.1, Option.map_some] at there
    have removed : Yields ((t.graph.replaceAllUses id value).kill id) fun graph => Consumed rank s.graph graph id := by
      refine yields_mono ((t.graph.replaceAllUses id value).kill_yields id _ there) fun graph edited => ⟨?_, ?_⟩
      · refine detached_kill moved edited rfl fun other next alive different => ?_
        exact unused other next ((alike other next different).mp alive) different
      · intro other
        rw [pending_edited edited (.inl rfl)]
        refine and_congr_left fun different => ?_
        rw [← pending other, pending_iff, pending_iff]
        exact exists_congr fun next => and_congr_left fun _ => alike other next different
    have step : Build.Yields (Build.change fun graph => (graph.replaceAllUses id value).kill id) u fun _ v =>
        Consumed rank s.graph v.graph id ∧ v.journal.mode = s.journal.mode := by
      refine Build.yields_change u ?_
      rw [same]
      exact yields_mono removed fun graph consumed => ⟨consumed, modeAgain⟩
    dsimp only
    rw [if_pos apart]
    exact Build.yields_bind u _ _ step fun _ v both => Build.yields_pure both

end

namespace Reducer

-- `thorough` reducers succeed on every creation.
def Lowers (rank : NodeId → Nat) (thorough : Prop) (reducer : Reducer) : Prop :=
  ∀ (s : Workspace) (id : NodeId), Graph.Lowerable rank s.graph → s.journal.mode ≠ .validating → s.graph.HasLive id →
    Build.Yields (reducer.reduce id) s fun reduction t => Reduces rank s id reduction t ∧
      (thorough → reduction = .unchanged → s.graph.pending id = false)

section

variable {rank : NodeId → Nat} {thorough : Prop} (reducer : Reducer) (lowers : reducer.Lowers rank thorough)

theorem reductions_count (stats : ReductionStats) (index : Nat) (changed : reduction ≠ .unchanged) :
    (stats.count index reduction).reductions = stats.reductions + 1 := by
  cases reduction with
  | unchanged => exact absurd rfl changed
  | changed id | replaced id => simp only [ReductionStats.count, ReductionStats.reductions]; omega

theorem enqueue_keeps {ids worklist : List NodeId} {queued : BitSet} (member : id ∈ worklist) :
    id ∈ (enqueue ids worklist queued).1 :=
  mem_append_left _ member

include lowers

theorem first_success_yields (sound : Lowerable rank s.graph) (tolerant : s.journal.mode ≠ .validating)
    (lives : s.graph.HasLive id) :
    Build.Yields (firstSuccess [reducer] id 0) s fun found t =>
      (found = none ∧ t.graph = s.graph ∧ t.journal.mode = s.journal.mode ∧ (thorough → s.graph.pending id = false)) ∨
        ∃ reduction, found = some (0, reducer, reduction) ∧ s.graph.pending id ∧ Succeeds rank s id reduction t := by
  refine Build.yields_bind s _ _ (lowers s id sound tolerant lives) ?_
  rintro reduction t ⟨reduces, total⟩
  rcases reduces with ⟨rfl, same, mode⟩ | ⟨waits, success⟩
  · exact Build.yields_pure (.inl ⟨rfl, same, mode, fun thorough => total thorough rfl⟩)
  · cases reduction with
    | unchanged => exact success.2.elim
    | changed again | replaced value => exact Build.yields_pure (.inr ⟨_, rfl, waits, success⟩)

structure Drained (rank : NodeId → Nat) (thorough : Prop) (s : Workspace) (listed : Prop) (before : Nat) (after : Nat)
    (t : Workspace) : Prop where
  sound : Graph.Lowerable rank t.graph
  mode : t.journal.mode = s.journal.mode
  balance : after + t.graph.waiting.card = before + s.graph.waiting.card
  done : thorough → listed → t.graph.waiting = ∅

def Drains (rank : NodeId → Nat) (thorough : Prop) (limit : Nat)
    (work : List NodeId → BitSet → ReductionStats → Build ReductionStats) : Prop :=
  ∀ (worklist : List NodeId) (queued : BitSet) (stats : ReductionStats) (s : Workspace), Graph.Lowerable rank s.graph →
    s.journal.mode ≠ .validating → s.graph.waiting.card ≤ limit →
    Build.Yields (work worklist queued stats) s fun result t =>
      Drained rank thorough s (∀ id, s.graph.pending id = true → id ∈ worklist) stats.reductions result.reductions t

theorem sweep_yields (limit : Nat) {resume : Option (List NodeId → BitSet → ReductionStats → Build ReductionStats)}
    (resumes : ∀ fewer, limit = fewer + 1 → ∃ work, resume = some work ∧ Drains rank thorough fewer work) :
    Drains rank thorough limit (sweep [reducer] resume) := by
  intro worklist queued stats s sound tolerant room
  induction worklist generalizing queued stats s with
  | nil =>
    refine Build.yields_pure ⟨sound, rfl, rfl, fun _ listed => ?_⟩
    rw [Finset.eq_empty_iff_forall_notMem]
    intro id member
    exact not_mem_nil (listed id ((mem_waiting s.graph id).mp member))
  | cons id rest ih =>
    have skip : ∀ (t : Workspace) (queued : BitSet) (next : ReductionStats), t.graph = s.graph →
        t.journal.mode = s.journal.mode → next.reductions = stats.reductions → (thorough → s.graph.pending id = false) →
        Build.Yields (sweep [reducer] resume rest queued next) t fun result u =>
          Drained rank thorough s (∀ other, s.graph.pending other → other ∈ id :: rest) stats.reductions
            result.reductions u := by
      intro t queued next same mode counted passed
      refine Build.yields_mono (ih queued next t (same ▸ sound) (mode ▸ tolerant) (same ▸ room)) ?_
      intro result u drained
      refine ⟨drained.sound, drained.mode.trans mode, ?_, fun total listed => drained.done total fun other waits => ?_⟩
      · rw [drained.balance, same, counted]
      · rw [same] at waits
        rcases mem_cons.mp (listed other waits) with rfl | later
        · rw [passed total] at waits
          cases waits
        · exact later
    rw [sweep]
    refine Build.yields_get_then s ?_
    extract_lets size visited
    refine Build.yields_get_then s ?_
    refine Build.yields_ite _ _ _ s _ (fun alive => ?_) fun gone => ?_
    · have lives : s.graph.HasLive id := (s.graph.is_live_iff id).mp alive
      refine Build.yields_bind s _ _ (first_success_yields reducer lowers sound tolerant lives) ?_
      rintro found t (⟨rfl, same, mode, passed⟩ | ⟨reduction, rfl, waits, success⟩)
      · exact skip t _ _ same mode rfl passed
      have holds : 0 < s.graph.waiting.card := Finset.card_pos.mpr ⟨id, (mem_waiting s.graph id).mpr waits⟩
      have changed : reduction ≠ .unchanged := by
        rintro rfl
        exact success.2.elim
      obtain ⟨work, rfl, drains⟩ := resumes (limit - 1) (by omega)
      refine Build.yields_bind t _ _ (settle_yields reducer success) ?_
      rintro again u ⟨consumed, mode⟩
      have fewer := consumed_card consumed waits
      refine Build.yields_get_then u ?_
      dsimp only
      refine Build.yields_mono (drains _ _ _ u consumed.sound (mode ▸ tolerant) (by omega)) ?_
      intro result v drained
      have counted := reductions_count visited 0 changed
      have base : visited.reductions = stats.reductions := rfl
      refine ⟨drained.sound, drained.mode.trans mode, ?_, fun total listed => drained.done total fun other pending => ?_⟩
      · have balance := drained.balance
        omega
      · obtain ⟨before, apart⟩ := (consumed.pending other).mp pending
        rcases mem_cons.mp (listed other before) with same | later
        · exact absurd same apart
        · exact enqueue_keeps later
    · refine skip s _ _ rfl rfl rfl fun _ => ?_
      rw [Bool.eq_false_iff, Ne, pending_iff]
      rintro ⟨node, live, _⟩
      exact gone ((s.graph.is_live_iff id).mpr ⟨node, live⟩)

theorem drain_yields (limit : Nat) : Drains rank thorough limit (drain [reducer] limit) := by
  induction limit with
  | zero => exact sweep_yields reducer lowers 0 nofun
  | succ limit ih =>
    refine sweep_yields reducer lowers (limit + 1) fun fewer same => ⟨drain [reducer] limit, rfl, ?_⟩
    obtain rfl := Nat.succ.inj same
    exact ih

theorem run_yields (sound : Lowerable rank s.graph) (tolerant : s.journal.mode ≠ .validating) :
    Build.Yields (run [reducer]) s fun result t => Drained rank thorough s True 0 result.reductions t := by
  unfold run
  refine Build.yields_get_then s ?_
  dsimp only
  refine Build.yields_bind s _ _ (drain_yields reducer lowers s.graph.size s.graph.liveIds _ _ s sound tolerant
    s.graph.waiting_card_le) ?_
  intro result t drained
  refine Build.yields_get_then t ?_
  refine Build.yields_pure ⟨drained.sound, drained.mode, drained.balance, fun total _ => drained.done total ?_⟩
  intro id waits
  obtain ⟨node, live, _⟩ := (pending_iff s.graph id).mp waits
  refine mem_filter.mpr ⟨?_, (s.graph.is_live_iff id).mpr ⟨node, live⟩⟩
  exact mem_range.mpr (s.graph.node_lt live.1)

end

end Reducer

theorem lower_creations_yields {rank : NodeId → Nat} (c : CreationContext) (s : Workspace)
    (sound : Lowerable rank s.graph) (tolerant : s.journal.mode ≠ .validating) :
    Build.Yields (lowerCreations c) s fun stats t => Lowerable rank t.graph ∧ t.graph.waiting = ∅ ∧
      stats.reductions = s.graph.waiting.card := by
  have expands : (Reducer.inlineCreation c).Lowers rank False := by
    intro s id sound tolerant lives
    refine Build.yields_mono (c.reduce_yields sound tolerant lives) fun reduction t reduces => ⟨reduces, ?_⟩
    exact fun impossible => impossible.elim
  have calls : (Reducer.creationCall c.heap).Lowers rank True := by
    intro s id sound tolerant lives
    refine Build.yields_mono (CreationCall.reduce_yields c.heap sound lives) ?_
    exact fun reduction t both => ⟨both.1, fun _ => both.2⟩
  refine Build.yields_bind s _ _ (Reducer.run_yields _ expands sound tolerant) fun inline t first => ?_
  refine Build.yields_bind t _ _ (Reducer.run_yields _ calls first.sound (first.mode ▸ tolerant)) fun called u second => ?_
  refine Build.yields_bind u (fun _ v => v.graph = u.graph) _ (Build.yields_note u rfl) fun _ v same => ?_
  have none := second.done trivial trivial
  have early := first.balance
  have late := second.balance
  rw [none, Finset.card_empty] at late
  refine Build.yields_pure ⟨same ▸ second.sound, same ▸ none, ?_⟩
  have total : (inline.append called).reductions = inline.reductions + called.reductions := by
    simp only [ReductionStats.append, ReductionStats.reductions]
    omega
  omega

end SeaOfNodes
