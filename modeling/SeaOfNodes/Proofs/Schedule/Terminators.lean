import SeaOfNodes.Proofs.Schedule.Listed

/-! The end of a block. -/

namespace SeaOfNodes

open List

variable {ids : List Nat} {a b : Nat}

theorem before_not_last (distinct : ids.Nodup) (before : Before ids a b) : ids.getLast? ≠ some a := by
  obtain ⟨front, back, rfl, member⟩ := before
  rw [getLast?_append_of_ne_nil _ (cons_ne_nil b back)]
  intro last
  exact disjoint_of_nodup_append distinct member (mem_of_getLast? last)

theorem before_of_append (early late : List Nat) (a b : Nat) (first : a ∈ early) (second : b ∈ late) : Before (early ++ late) a b := by
  obtain ⟨front, back, rfl⟩ := append_of_mem second
  exact ⟨early ++ front, back, by simp, mem_append_left _ first⟩

theorem before_of_lt (ascending : ids.Pairwise (· < ·)) (first : a ∈ ids) (second : b ∈ ids) (less : a < b) : Before ids a b := by
  obtain ⟨front, back, rfl⟩ := append_of_mem second
  refine ⟨front, back, rfl, (mem_append.mp first).resolve_right fun late => ?_⟩
  obtain ⟨above, _⟩ := pairwise_cons.mp (pairwise_append.mp ascending).2.1
  rcases mem_cons.mp late with same | later
  · omega
  · have := above a later
    omega

def Graph.Heads (graph : Graph) (id : NodeId) : Prop := graph.isPhi id = true ∧ id ≠ Graph.stop

namespace Schedule

-- What stands behind a node in the list of their block: the users of the node; behind the start all others; behind a phi all but
-- the start and the phis in front of it.
def Follows (graph : Graph) (block : Block) (id user : NodeId) : Prop :=
  id ∈ orderingInputs graph user ∨
    user ≠ id ∧ (id = block.start ∨ graph.Heads id ∧ user ≠ block.start ∧ (graph.Heads user → id < user))

namespace Stages

variable {graph : Graph} {schedule : Schedule} {ids : List NodeId} {flow : Flow} {initial fixed : Placement}
  (stages : Stages graph schedule ids flow initial fixed)

include stages

theorem ids_ascend : ids.Pairwise (· < ·) := by
  have gathered := stages.gathered
  simp only [Graph.schedulable, bind_eq_ok, pure_eq_ok] at gathered
  obtain ⟨found, _, rfl⟩ := gathered
  exact pairwise_lt_range.filter _

variable (id : BlockId) (block : Block)
  (listed : Listed graph schedule.placement block id (ids.filter fun v => schedule.placement.find? v = some id) block.nodes)

include listed

theorem block_head : ∃ phis rest, block.nodes = block.start :: (phis ++ rest) ∧ phis.Pairwise (· < ·) ∧
    ∀ v ∈ block.nodes, v ∈ phis ↔ graph.Heads v := by
  obtain ⟨phis, rest, same, sub, exact⟩ := listed.front
  refine ⟨phis, rest, same, (stages.ids_ascend.filter _).sublist sub, fun v inside => ?_⟩
  obtain ⟨here, needed⟩ := listed.placed v inside
  rw [exact v, mem_filter, stages.mem_ids, Graph.Heads]
  exact ⟨fun ⟨⟨⟨_, inner⟩, _⟩, phi⟩ => ⟨phi, inner⟩, fun ⟨phi, inner⟩ => ⟨⟨⟨needed, inner⟩, by simpa using here⟩, phi⟩⟩

theorem follows_before {v user : NodeId} (inside : v ∈ block.nodes) (users : user ∈ block.nodes) (follows : Follows graph block v user) :
    Before block.nodes v user := by
  rcases follows with ordered | ⟨other, start | ⟨heads, inner, later⟩⟩
  · exact listed.inputs user users v ordered (listed.placed v inside).1
  · obtain ⟨phis, rest, same, _⟩ := stages.block_head id block listed
    rw [same] at users ⊢
    have behind := (mem_cons.mp users).resolve_left (start ▸ other)
    exact before_of_append [block.start] _ v user (start ▸ mem_cons_self) behind
  · obtain ⟨phis, rest, same, ascending, exact⟩ := stages.block_head id block listed
    have first := (exact v inside).mpr heads
    have among := (exact user users).mp
    rw [same] at users ⊢
    apply before_cons
    rcases mem_append.mp ((mem_cons.mp users).resolve_left inner) with second | second
    · exact before_append (before_of_lt ascending first second (later (among second)))
    · exact before_of_append phis rest v user first second

theorem last_iff (last : NodeId) (ended : block.terminator = some last) :
    block.nodes.getLast? = some last ↔ ∀ user ∈ block.nodes, ¬ Follows graph block last user := by
  have inside := listed.ended last ended
  constructor
  · intro final user users follows
    exact before_not_last listed.distinct (stages.follows_before id block listed inside users follows) final
  intro none
  obtain ⟨user, final⟩ := Option.ne_none_iff_exists'.mp (mt getLast?_eq_none_iff.mp (ne_nil_of_mem inside))
  have users := mem_of_getLast? final
  by_contra early
  have other : user ≠ last := fun same => early (same ▸ final)
  -- What stands last is not in front of another node.
  have behind : ¬ Follows graph block user last := fun follows =>
    before_not_last listed.distinct (stages.follows_before id block listed users inside follows) final
  rcases (listed.early last ended).resolve_left early with start | ⟨member, phi⟩ | ⟨other, listed, ordered⟩
  · exact none user users (.inr ⟨other, .inl start⟩)
  · have heads : graph.Heads last := ⟨phi, ((stages.mem_ids last).mp (mem_filter.mp member).1).2⟩
    have started : user ≠ block.start := fun start => behind (.inr ⟨Ne.symm other, .inl start⟩)
    refine none user users (.inr ⟨other, .inr ⟨heads, started, fun also => ?_⟩⟩)
    by_contra less
    refine behind (.inr ⟨Ne.symm other, .inr ⟨also, ?_, fun _ => Nat.lt_of_le_of_ne (not_lt.mp less) other⟩⟩)
    intro start
    exact none user users (.inr ⟨other, .inl start⟩)
  · exact none other listed (.inl ordered)

end Stages

end Schedule

theorem terminator_last_iff (graph : Graph) (schedule : Schedule) (accepted : Schedule.ofGraph graph = .ok schedule) :
    ∀ id ∈ schedule.order, ∃ block, schedule.block? id = some block ∧ ∀ last, block.terminator = some last →
      last ∈ block.nodes ∧
      (block.nodes.getLast? = some last ↔ ∀ user ∈ block.nodes, ¬ Schedule.Follows graph block last user) := by
  obtain ⟨ids, flow, initial, fixed, stages⟩ := Schedule.of_graph_stages accepted
  intro id member
  obtain ⟨block, read, _, listed⟩ := stages.block_listed id member
  exact ⟨block, read, fun last ended => ⟨listed.ended last ended, stages.last_iff id block listed last ended⟩⟩

def Graph.breakBehindCall : Graph :=
  { Graph.empty with
    nodes := ⟨#[
      { op := .control .start, inputs := [] },
      { op := .control (.stop 2), inputs := [7, 8] },
      { op := .constant (.heap Root.undefined), inputs := [] },
      { op := .call ⟨0, 1, 1, false, .none⟩, inputs := [2, 0, 0] },
      { op := .debugBreak, inputs := [3, 3] },
      { op := .control .ifSuccess, inputs := [3] },
      { op := .control .ifException, inputs := [3, 3] },
      { op := .control (.ret 1), inputs := [2, 3, 4, 5] },
      { op := .control .throw, inputs := [6, 6] }]⟩
    uses := ⟨#[[3, 3], [], [3, 7], [4, 4, 5, 6, 6, 7], [7], [7], [8, 8], [1], [1]]⟩ }

theorem break_behind_call_last_iff : ∃ schedule, Schedule.ofGraph .breakBehindCall = .ok schedule ∧
    schedule.ordered.map (fun entry => (entry.2.terminator, entry.2.nodes.getLast?)) =
      [(some 3, some 4), (some 8, some 8), (some 7, some 7)] ∧
    ∀ id ∈ schedule.order, ∃ block, schedule.block? id = some block ∧ ∀ last, block.terminator = some last →
      last ∈ block.nodes ∧
      (block.nodes.getLast? = some last ↔ ∀ user ∈ block.nodes, ¬ Schedule.Follows .breakBehindCall block last user) := by
  obtain ⟨schedule, accepted, ends⟩ := scheduled_check .breakBehindCall
    (fun schedule => schedule.ordered.map (fun entry => (entry.2.terminator, entry.2.nodes.getLast?)) =
      [(some 3, some 4), (some 8, some 8), (some 7, some 7)]) (by cbv)
  exact ⟨schedule, accepted, of_decide_eq_true ends, terminator_last_iff .breakBehindCall schedule accepted⟩

theorem break_behind_call_not_last : Graph.breakBehindCall.verify = .ok () ∧
    ∃ schedule, Schedule.ofGraph .breakBehindCall = .ok schedule ∧ ∃ id ∈ schedule.order, ∃ block,
      schedule.block? id = some block ∧ block.terminator = some 3 ∧ block.nodes.getLast? ≠ some 3 := by
  refine ⟨ok_of_to_option _ () (by decide), ?_⟩
  obtain ⟨schedule, accepted, found⟩ := scheduled_check .breakBehindCall
    (fun schedule => schedule.ordered.any fun entry => entry.2.terminator = some 3 ∧ entry.2.nodes.getLast? ≠ some 3) (by cbv)
  obtain ⟨entry, member, early⟩ := any_eq_true.mp found
  obtain ⟨reached, read⟩ := schedule.mem_ordered member
  exact ⟨schedule, accepted, entry.1, reached, entry.2, read, of_decide_eq_true early⟩

end SeaOfNodes
