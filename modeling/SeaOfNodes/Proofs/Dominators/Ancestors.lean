import Mathlib
import SeaOfNodes.Schedule.Dominators

namespace SeaOfNodes.DominatorTree

open List

variable {b parent a : Nat}

def Above (tree : DominatorTree) (a b : Nat) : Prop := tree.dominates a b = true

structure Rooted (tree : DominatorTree) : Prop where
  root : tree.parent? 0 = some 0
  below : ∀ position parent, tree.parent? position = some parent → 0 < position → parent < position
  grounded : ∀ position parent, tree.parent? position = some parent → (tree.parent? parent).isSome

-- The walk of two fingers without the guard that `intersect` puts on every step up: it only has a
-- derivation when the walk ends.
inductive Meets (tree : DominatorTree) : Nat → Nat → Nat → Prop where
  | here (a : Nat) : Meets tree a a a
  | left (a b parent c : Nat) (after : b < a) (read : tree.parent? a = some parent)
      (rest : Meets tree parent b c) : Meets tree a b c
  | leftEnd (a b : Nat) (after : b < a) (read : tree.parent? a = none) : Meets tree a b b
  | right (a b parent c : Nat) (after : a < b) (read : tree.parent? b = some parent)
      (rest : Meets tree a parent c) : Meets tree a b c
  | rightEnd (a b : Nat) (after : a < b) (read : tree.parent? b = none) : Meets tree a b a

theorem above_refl (tree : DominatorTree) (a : Nat) : tree.Above a a := by
  rw [Above, dominates, if_pos rfl]

theorem above_step (tree : DominatorTree) (a : Nat) (read : tree.parent? b = some parent) (below : parent < b) :
    tree.Above a b ↔ a = b ∨ tree.Above a parent := by
  rw [Above, dominates, read]
  by_cases same : a = b
  · simp [same]
  · simp [same, below, Above]

theorem above_bare (tree : DominatorTree) (read : tree.parent? b = none) (above : tree.Above a b) : a = b := by
  rw [Above, dominates, read] at above
  by_contra different
  simp [different] at above

-- Induction down the chain of parents from an ancestor.
theorem above_induct (tree : DominatorTree) {motive : Nat → Prop} (above : tree.Above a b) (here : motive a)
    (step : ∀ b parent, tree.parent? b = some parent → parent < b → tree.Above a parent → motive parent → motive b) : motive b := by
  induction b using Nat.strongRecOn with
  | _ b ih =>
    by_cases same : a = b
    · exact same ▸ here
    cases read : tree.parent? b with
    | none => exact absurd (tree.above_bare read above) same
    | some parent =>
      by_cases below : parent < b
      · have higher := ((tree.above_step a read below).mp above).resolve_left same
        exact step b parent read below higher (ih parent below higher)
      · rw [Above, dominates, read] at above
        simp [same, below] at above

theorem above_le (tree : DominatorTree) (above : tree.Above a b) : a ≤ b :=
  tree.above_induct above le_rfl fun _ _ _ below _ order => order.trans below.le

theorem above_trans (tree : DominatorTree) {c : Nat} (upper : tree.Above a b) (lower : tree.Above b c) : tree.Above a c :=
  tree.above_induct lower upper fun _ _ read below _ higher => (tree.above_step a read below).mpr (.inr higher)

theorem above_line (tree : DominatorTree) {c : Nat} (first : tree.Above a c) (second : tree.Above b c) (order : a ≤ b) : tree.Above a b := by
  refine tree.above_induct (motive := fun c => tree.Above a c → tree.Above a b) second id
    (fun c parent read below higher ih first => ?_) first
  have bound := tree.above_le higher
  exact ih (((tree.above_step a read below).mp first).resolve_left (by omega))

theorem above_zero (tree : DominatorTree) (a : Nat) : tree.Above a 0 ↔ a = 0 := by
  constructor
  · intro above
    exact Nat.le_zero.mp (tree.above_le above)
  · intro same
    exact same ▸ tree.above_refl a

theorem above_congr (tree other : DominatorTree) (a b : Nat)
    (agree : ∀ position ≤ b, tree.parent? position = other.parent? position) :
    tree.Above a b ↔ other.Above a b := by
  induction b using Nat.strongRecOn with
  | _ b ih =>
    have here := agree b (le_refl b)
    cases read : tree.parent? b with
    | none =>
      rw [read] at here
      constructor
      · intro above
        exact tree.above_bare read above ▸ other.above_refl a
      · intro above
        exact other.above_bare here.symm above ▸ tree.above_refl a
    | some parent =>
      rw [read] at here
      by_cases below : parent < b
      · rw [tree.above_step a read below, other.above_step a here.symm below,
          ih parent below fun position bound => agree position (by omega)]
      · simp only [Above]
        rw [dominates, dominates, read, ← here]
        simp [below]

namespace Rooted

variable {tree : DominatorTree} (rooted : tree.Rooted)

include rooted

theorem above_iff {a : Nat} (read : tree.parent? b = some parent) (after : 0 < b) :
    tree.Above a b ↔ a = b ∨ tree.Above a parent :=
  tree.above_step a read (rooted.below b parent read after)

theorem above_placed (placed : (tree.parent? b).isSome) (above : tree.Above a b) : (tree.parent? a).isSome := by
  refine tree.above_induct (motive := fun b => (tree.parent? b).isSome → (tree.parent? a).isSome) above id ?_ placed
  exact fun b parent read _ _ ih _ => ih (rooted.grounded b parent read)

theorem meets_intersect (a b : Nat) : tree.Meets a b (tree.intersect a b) := by
  induction total : a + b using Nat.strongRecOn generalizing a b with
  | _ total ih =>
    rw [intersect]
    by_cases same : a = b
    · rw [if_pos same]
      exact same ▸ .here a
    rw [if_neg same]
    by_cases order : b < a
    · rw [if_pos order]
      cases read : tree.parent? a with
      | none => exact .leftEnd a b order read
      | some parent =>
        have below := rooted.below a parent read (by omega)
        simp only [below, if_true]
        exact .left a b parent _ order read (ih (parent + b) (by omega) parent b rfl)
    · rw [if_neg order]
      have after : a < b := by omega
      cases read : tree.parent? b with
      | none => exact .rightEnd a b after read
      | some parent =>
        have below := rooted.below b parent read (by omega)
        simp only [below, if_true]
        exact .right a b parent _ after read (ih (a + parent) (by omega) a parent rfl)

theorem above_of_meets {c : Nat} (d : Nat) (meets : tree.Meets a b c) (left : (tree.parent? a).isSome)
    (right : (tree.parent? b).isSome) : tree.Above d c ↔ tree.Above d a ∧ tree.Above d b := by
  induction meets with
  | here a => simp
  | left a b parent c after read _ ih =>
    have below := rooted.below a parent read (by omega)
    rw [ih (rooted.grounded a parent read) right, rooted.above_iff read (by omega)]
    constructor
    · rintro ⟨first, second⟩
      exact ⟨.inr first, second⟩
    · rintro ⟨first, second⟩
      have bound := tree.above_le second
      exact ⟨first.resolve_left (by omega), second⟩
  | leftEnd a b after read => simp [read] at left
  | right a b parent c after read _ ih =>
    have below := rooted.below b parent read (by omega)
    rw [ih left (rooted.grounded b parent read), rooted.above_iff read (by omega)]
    constructor
    · rintro ⟨first, second⟩
      exact ⟨first, .inr second⟩
    · rintro ⟨first, second⟩
      have bound := tree.above_le first
      exact ⟨first, second.resolve_left (by omega)⟩
  | rightEnd a b after read => simp [read] at right

theorem above_intersect (d : Nat) (left : (tree.parent? a).isSome) (right : (tree.parent? b).isSome) :
    tree.Above d (tree.intersect a b) ↔ tree.Above d a ∧ tree.Above d b :=
  rooted.above_of_meets d (rooted.meets_intersect a b) left right

theorem fold_intersect (positions : List Nat) {found : Nat}
    (placed : ∀ position ∈ positions, (tree.parent? position).isSome) (start : (tree.parent? found).isSome) :
    ∃ joined, positions.foldl (fun found position =>
        match found with
        | none => some position
        | some other => some (tree.intersect position other)) (some found) = some joined ∧
      ∀ d, tree.Above d joined ↔ tree.Above d found ∧ ∀ position ∈ positions, tree.Above d position := by
  induction positions generalizing found with
  | nil => exact ⟨found, rfl, by simp⟩
  | cons position rest ih =>
    have first := placed position (by simp)
    have meet := fun d => rooted.above_intersect d first start
    have higher := ((meet _).mp (tree.above_refl (tree.intersect position found))).2
    obtain ⟨joined, result, spec⟩ := ih (fun other member => placed other (mem_cons_of_mem position member))
      (rooted.above_placed start higher)
    refine ⟨joined, result, fun d => ?_⟩
    rw [spec d, meet d]
    simp only [mem_cons, forall_eq_or_imp]
    tauto

theorem join_spec {predecessors : List Nat} {q : Nat} (member : q ∈ predecessors) (placed : (tree.parent? q).isSome) :
    ∃ joined, tree.join predecessors = some joined ∧ ∀ d, tree.Above d joined ↔
        ∀ position ∈ predecessors, (tree.parent? position).isSome → tree.Above d position := by
  rw [join]
  have kept : q ∈ predecessors.filter fun position => (tree.parent? position).isSome :=
    mem_filter.mpr ⟨member, placed⟩
  have spec : ∀ d, (∀ position ∈ predecessors.filter fun position => (tree.parent? position).isSome,
      tree.Above d position) ↔ ∀ position ∈ predecessors, (tree.parent? position).isSome → tree.Above d position := by
    intro d
    simp only [mem_filter, and_imp]
  have all : ∀ position ∈ predecessors.filter fun position => (tree.parent? position).isSome,
      (tree.parent? position).isSome := fun position present => (mem_filter.mp present).2
  generalize predecessors.filter (fun position => (tree.parent? position).isSome) = processed at kept spec all
  cases processed with
  | nil => simp at kept
  | cons first rest =>
    obtain ⟨joined, result, meaning⟩ := rooted.fold_intersect rest
      (fun position present => all position (mem_cons_of_mem first present)) (all first (by simp))
    refine ⟨joined, result, fun d => ?_⟩
    rw [meaning d, ← spec d]
    simp

end Rooted

end SeaOfNodes.DominatorTree
