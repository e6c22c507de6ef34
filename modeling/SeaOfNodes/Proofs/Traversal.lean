import Mathlib
import SeaOfNodes.Schedule.Traversal

namespace SeaOfNodes

open List

variable {successors : Nat → List Nat} {rest : List (Nat × List Nat)} {size root vertex next : Nat}
  {unvisited left more : List Nat}

abbrev Reaches (successors : Nat → List Nat) : Nat → Nat → Prop :=
  Relation.ReflTransGen fun a b => b ∈ successors a

def Before (ids : List Nat) (a b : Nat) : Prop := ∃ front back, ids = front ++ b :: back ∧ a ∈ front

theorem before_cons (ids : List Nat) (first a b : Nat) (before : Before ids a b) : Before (first :: ids) a b := by
  obtain ⟨front, back, same, member⟩ := before
  exact ⟨first :: front, back, by simp [same], mem_cons_of_mem first member⟩

theorem before_first {ids : List Nat} (first : Nat) {b : Nat} (member : b ∈ ids) : Before (first :: ids) first b := by
  obtain ⟨front, back, same⟩ := append_of_mem member
  exact ⟨first :: front, back, by simp [same], by simp⟩

-- The vertices on the stack are a path from the root, the newest on top. A vertex is only left after all
-- its successors have been entered, and its parent on the stack is left after it. A successor that is
-- already on the stack leads back to the vertex, and one already left comes later in the order.
structure SearchInvariant (successors : Nat → List Nat) (size root : Nat) (unvisited : List Nat)
    (stack : List (Nat × List Nat)) (left : List Nat) : Prop where
  distinct : (stack.map Prod.fst ++ left).Nodup
  covered : ∀ v < size, v ∈ unvisited ∨ v ∈ stack.map Prod.fst ++ left
  entered : ∀ v ∈ stack.map Prod.fst ++ left, v ∉ unvisited
  fresh : unvisited.Nodup
  reached : ∀ v ∈ stack.map Prod.fst ++ left, Reaches successors root v
  finished : ∀ v ∈ left, ∀ next ∈ successors v, next ∉ unvisited
  pending : ∀ entry ∈ stack, ∀ next ∈ successors entry.1, next ∈ entry.2 ∨ next ∉ unvisited
  waiting : ∀ entry ∈ stack, ∀ next ∈ entry.2, next ∈ successors entry.1
  chained : stack.IsChain fun upper lower => upper.1 ∈ successors lower.1
  bottom : ∀ entry, stack.getLast? = some entry → entry.1 = root
  parented : ∀ v ∈ left, v ≠ root → ∃ p, v ∈ successors p ∧ (p ∈ stack.map Prod.fst ∨ Before left p v)
  closing : ∀ v ∈ left, ∀ next ∈ successors v, next < size → Reaches successors next v ∨ Before left v next
  rooted : stack = [] → left.head? = some root

theorem stack_reaches {top : Nat × List Nat} (chained : (top :: rest).IsChain fun upper lower => upper.1 ∈ successors lower.1)
    {entry : Nat × List Nat} (member : entry ∈ top :: rest) : Reaches successors entry.1 top.1 := by
  induction rest generalizing top with
  | nil =>
    have same : entry = top := by simpa using member
    exact same ▸ .refl
  | cons lower deeper ih =>
    obtain ⟨edge, below⟩ := isChain_cons_cons.mp chained
    rcases mem_cons.mp member with same | older
    · exact same ▸ .refl
    · exact (ih below older).tail edge

theorem search_leave (inv : SearchInvariant successors size root unvisited ((vertex, []) :: rest) left) :
    SearchInvariant successors size root unvisited rest (vertex :: left) := by
  have moved : ∀ v, v ∈ rest.map Prod.fst ++ vertex :: left ↔ v ∈ ((vertex, []) :: rest).map Prod.fst ++ left := by
    intro v
    simp only [map_cons, cons_append, mem_append, mem_cons]
    tauto
  constructor
  case distinct =>
    have distinct := inv.distinct
    simp only [map_cons, cons_append] at distinct
    exact (perm_middle.nodup_iff).mpr distinct
  case covered =>
    intro v bound
    rw [moved]
    exact inv.covered v bound
  case entered =>
    intro v member
    exact inv.entered v ((moved v).mp member)
  case fresh => exact inv.fresh
  case reached =>
    intro v member
    exact inv.reached v ((moved v).mp member)
  case finished =>
    exact forall_mem_cons.mpr
      ⟨fun next edge => (inv.pending (vertex, []) (by simp) next edge).resolve_left (by simp), inv.finished⟩
  case pending =>
    intro entry member
    exact inv.pending entry (mem_cons_of_mem _ member)
  case waiting =>
    intro entry member
    exact inv.waiting entry (mem_cons_of_mem _ member)
  case chained => exact inv.chained.tail
  case bottom =>
    intro entry last
    apply inv.bottom entry
    cases rest with
    | nil => simp at last
    | cons => simpa using last
  case parented =>
    intro v member different
    rcases mem_cons.mp member with same | older
    · subst same
      cases rest with
      | nil => exact absurd (inv.bottom (v, []) (by simp)) different
      | cons lower deeper =>
        have edge := (isChain_cons_cons.mp inv.chained).1
        exact ⟨lower.1, edge, .inl (by simp)⟩
    · obtain ⟨p, edge, place⟩ := inv.parented v older different
      refine ⟨p, edge, ?_⟩
      rcases place with onStack | before
      · rcases mem_cons.mp onStack with same | deeper
        · exact .inr (same ▸ before_first vertex older)
        · exact .inl deeper
      · exact .inr (before_cons left vertex p v before)
  case closing =>
    intro v member next edge inside
    rcases mem_cons.mp member with same | older
    · subst same
      have seen := (inv.pending (v, []) (by simp) next edge).resolve_left (by simp)
      rcases mem_append.mp ((inv.covered next inside).resolve_left seen) with onStack | older
      · obtain ⟨entry, present, same⟩ := mem_map.mp onStack
        exact .inl (same ▸ stack_reaches inv.chained present)
      · exact .inr (before_first v older)
    · exact (inv.closing v older next edge inside).imp id (before_cons left vertex v next)
  case rooted =>
    intro empty
    subst empty
    simpa using inv.bottom (vertex, []) (by simp)

section

variable (inv : SearchInvariant successors size root unvisited ((vertex, next :: more) :: rest) left)

include inv

-- Whether `next` is entered or skipped, the vertex on top of the stack goes on to its next successor.
theorem SearchInvariant.pending_advance {fewer : List Nat} (taken : next ∉ fewer) (gone : ∀ v, v ∉ unvisited → v ∉ fewer) :
    ∀ entry ∈ (vertex, more) :: rest, ∀ after ∈ successors entry.1, after ∈ entry.2 ∨ after ∉ fewer := by
  intro entry present after step
  rcases mem_cons.mp present with same | deeper
  · subst same
    rcases inv.pending (vertex, next :: more) (by simp) after step with awaited | absent
    · rcases mem_cons.mp awaited with same | later
      · exact .inr (same ▸ taken)
      · exact .inl later
    · exact .inr (gone after absent)
  · exact (inv.pending entry (mem_cons_of_mem _ deeper) after step).imp id (gone after)

theorem SearchInvariant.waiting_advance : ∀ entry ∈ (vertex, more) :: rest, ∀ after ∈ entry.2, after ∈ successors entry.1 := by
  obtain ⟨first, others⟩ := forall_mem_cons.mp inv.waiting
  exact forall_mem_cons.mpr ⟨fun after awaited => first after (mem_cons_of_mem next awaited), others⟩

theorem SearchInvariant.chained_advance :
    ((vertex, more) :: rest).IsChain fun upper lower => upper.1 ∈ successors lower.1 := by
  have chained := inv.chained
  cases rest with
  | nil => exact .singleton _
  | cons lower deeper =>
    rw [isChain_cons_cons] at chained ⊢
    exact chained

theorem SearchInvariant.bottom_advance : ∀ entry, ((vertex, more) :: rest).getLast? = some entry → entry.1 = root := by
  intro entry last
  cases rest with
  | nil =>
    have same : (vertex, more) = entry := by simpa using last
    exact same ▸ inv.bottom (vertex, next :: more) (by simp)
  | cons lower deeper => exact inv.bottom entry (by simpa using last)

theorem search_enter (member : next ∈ unvisited) : SearchInvariant successors size root (unvisited.erase next)
      ((next, successors next) :: (vertex, more) :: rest) left := by
  have edge : next ∈ successors vertex := inv.waiting (vertex, next :: more) (by simp) next (by simp)
  have gone : ∀ v, v ∉ unvisited → v ∉ unvisited.erase next := fun v absent present =>
    absent (mem_of_mem_erase present)
  have entering : next ∉ unvisited.erase next := inv.fresh.not_mem_erase
  constructor
  case distinct =>
    simp only [map_cons, cons_append, nodup_cons]
    refine ⟨fun present => inv.entered next ?_ member, by simpa using inv.distinct⟩
    simpa using present
  case covered =>
    intro v bound
    rcases inv.covered v bound with waiting | seen
    · by_cases same : v = next
      · exact .inr (by simp [same])
      · exact .inl ((mem_erase_of_ne same).mpr waiting)
    · exact .inr (mem_cons_of_mem next (by simpa using seen))
  case entered =>
    exact forall_mem_cons.mpr ⟨entering, fun v older => gone v (inv.entered v (by simpa using older))⟩
  case fresh => exact inv.fresh.erase next
  case reached =>
    exact forall_mem_cons.mpr ⟨(inv.reached vertex (by simp)).tail edge, fun v older => inv.reached v (by simpa using older)⟩
  case finished =>
    intro v older after step
    exact gone after (inv.finished v older after step)
  case pending =>
    exact forall_mem_cons.mpr ⟨fun _ step => .inl step, inv.pending_advance entering gone⟩
  case waiting =>
    exact forall_mem_cons.mpr ⟨fun _ => id, inv.waiting_advance⟩
  case chained => exact isChain_cons_cons.mpr ⟨edge, inv.chained_advance⟩
  case bottom =>
    intro entry last
    exact inv.bottom_advance entry (by simpa using last)
  case parented =>
    intro v older different
    obtain ⟨p, step, place⟩ := inv.parented v older different
    exact ⟨p, step, place.imp (fun onStack => mem_cons_of_mem next (by simpa using onStack)) id⟩
  case closing => exact inv.closing
  case rooted =>
    intro impossible
    cases impossible

theorem search_skip (absent : next ∉ unvisited) :
    SearchInvariant successors size root unvisited ((vertex, more) :: rest) left := by
  constructor
  case distinct => simpa using inv.distinct
  case covered => simpa using inv.covered
  case entered => simpa using inv.entered
  case fresh => exact inv.fresh
  case reached => simpa using inv.reached
  case finished => exact inv.finished
  case pending => exact inv.pending_advance absent fun _ => id
  case waiting => exact inv.waiting_advance
  case chained => exact inv.chained_advance
  case bottom => exact inv.bottom_advance
  case parented => simpa using inv.parented
  case closing => exact inv.closing
  case rooted =>
    intro impossible
    cases impossible

end

theorem search_run {stack : List (Nat × List Nat)} (inv : SearchInvariant successors size root unvisited stack left) :
    ∃ rest, SearchInvariant successors size root rest [] (depthFirst successors unvisited stack left) := by
  fun_induction depthFirst successors unvisited stack left with
  | case1 unvisited left => exact ⟨unvisited, inv⟩
  | case2 unvisited left vertex rest ih => exact ih (search_leave inv)
  | case3 unvisited left vertex next more rest member ih => exact ih (search_enter inv member)
  | case4 unvisited left vertex next more rest absent ih => exact ih (search_skip inv absent)

section

variable (successors : Nat → List Nat) (size root : Nat)

theorem search_start : SearchInvariant successors size root ((range size).erase root) [(root, successors root)] [] := by
  have nodup : (range size).Nodup := nodup_range
  constructor
  case distinct => simp
  case covered =>
    intro v bound
    by_cases same : v = root
    · exact .inr (by simp [same])
    · exact .inl ((mem_erase_of_ne same).mpr (mem_range.mpr bound))
  case entered =>
    intro v present
    have same : v = root := by simpa using present
    exact same ▸ nodup.not_mem_erase
  case fresh => exact nodup.erase root
  case reached =>
    intro v present
    have same : v = root := by simpa using present
    exact same ▸ .refl
  case finished => simp
  case pending =>
    intro entry present next step
    have same : entry = (root, successors root) := by simpa using present
    subst same
    exact .inl step
  case waiting =>
    intro entry present next awaited
    have same : entry = (root, successors root) := by simpa using present
    subst same
    exact awaited
  case chained => exact .singleton _
  case bottom =>
    intro entry last
    have same : (root, successors root) = entry := by simpa using last
    exact same ▸ rfl
  case parented => simp
  case closing => simp
  case rooted =>
    intro impossible
    cases impossible

theorem search_end : ∃ rest, SearchInvariant successors size root rest [] (reversePostorder successors size root) :=
  search_run (search_start successors size root)

theorem reverse_postorder_nodup : (reversePostorder successors size root).Nodup := by
  obtain ⟨rest, inv⟩ := search_end successors size root
  simpa using inv.distinct

theorem reverse_postorder_head : (reversePostorder successors size root).head? = some root := by
  obtain ⟨rest, inv⟩ := search_end successors size root
  exact inv.rooted rfl

theorem mem_reverse_postorder (closed : ∀ v, ∀ next ∈ successors v, next < size) (v : Nat) :
    v ∈ reversePostorder successors size root ↔ Reaches successors root v := by
  obtain ⟨rest, inv⟩ := search_end successors size root
  constructor
  · intro member
    exact inv.reached v (by simpa using member)
  · intro reached
    induction reached with
    | refl => exact mem_of_mem_head? (inv.rooted rfl)
    | @tail middle last _ step ih =>
      have seen := inv.finished middle ih last step
      simpa [seen] using inv.covered last (closed middle last step)

theorem reverse_postorder_parent {v : Nat} (member : v ∈ reversePostorder successors size root) (different : v ≠ root) :
    ∃ p, v ∈ successors p ∧ Before (reversePostorder successors size root) p v := by
  obtain ⟨rest, inv⟩ := search_end successors size root
  obtain ⟨p, step, place⟩ := inv.parented v member different
  exact ⟨p, step, place.resolve_left (by simp)⟩

theorem reverse_postorder_edge {v : Nat} (member : v ∈ reversePostorder successors size root) (edge : next ∈ successors v)
    (inside : next < size) : Reaches successors next v ∨ Before (reversePostorder successors size root) v next := by
  obtain ⟨rest, inv⟩ := search_end successors size root
  exact inv.closing v member next edge inside

end

end SeaOfNodes
