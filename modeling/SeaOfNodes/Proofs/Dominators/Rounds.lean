import SeaOfNodes.Proofs.Dominators.Ancestors

namespace SeaOfNodes

open List

variable {edge : Nat → Nat → Prop} {root a : Nat}

inductive Route (edge : Nat → Nat → Prop) (root : Nat) : Nat → List Nat → Prop where
  | start : Route edge root root [root]
  | step (a b : Nat) (passed : List Nat) (before : Route edge root a passed) (jump : edge a b) :
      Route edge root b (b :: passed)

def OnEveryRoute (edge : Nat → Nat → Prop) (root a b : Nat) : Prop :=
  ∀ passed, Route edge root b passed → a ∈ passed

theorem on_every_route_before {b : Nat} (q : Nat) (every : OnEveryRoute edge root a b) (different : a ≠ b) (jump : edge q b) :
    OnEveryRoute edge root a q := by
  intro passed route
  rcases mem_cons.mp (every (b :: passed) (.step q b passed route jump)) with same | earlier
  · exact absurd same different
  · exact earlier

theorem on_every_route_root (every : OnEveryRoute edge root a root) : a = root := by
  simpa using every [root] .start

namespace DominatorTree

variable {tree : DominatorTree} {position q : Nat}

def sweep (predecessors : Nat → List Nat) (tree : DominatorTree) (position : Nat) : DominatorTree :=
  ((List.range position).drop 1).foldl (update predecessors) tree

def unplaced (size : Nat) : DominatorTree := ⟨(Array.replicate size none).setIfInBounds 0 (some 0)⟩

section

variable (predecessors : Nat → List Nat) (tree : DominatorTree)

theorem size_update (position : Nat) : (update predecessors tree position).parents.size = tree.parents.size := by
  unfold update
  split <;> simp

theorem parent_update (position other : Nat) (inside : position < tree.parents.size) :
    (update predecessors tree position).parent? other =
      if other = position then (tree.join (predecessors position)).or (tree.parent? position)
      else tree.parent? other := by
  unfold update
  cases joined : tree.join (predecessors position) with
  | none => by_cases same : other = position <;> simp [same]
  | some parent =>
    by_cases same : other = position
    · subst same
      simp [parent?, inside]
    · simp [parent?, same, Ne.symm same]

theorem sweep_one : sweep predecessors tree 1 = tree := rfl

theorem sweep_succ (position : Nat) (after : 0 < position) :
    sweep predecessors tree (position + 1) = update predecessors (sweep predecessors tree position) position := by
  have fits : 1 ≤ (range position).length := by
    rw [length_range]
    exact after
  rw [sweep, sweep, range_succ, drop_append_of_le_length fits, foldl_append]
  rfl

theorem round_eq_sweep : tree.round predecessors = sweep predecessors tree tree.parents.size := rfl

theorem size_sweep (position : Nat) : (sweep predecessors tree position).parents.size = tree.parents.size := by
  rw [sweep]
  induction (range position).drop 1 generalizing tree with
  | nil => rfl
  | cons first rest ih => rw [foldl_cons, ih, size_update]

theorem size_round : (tree.round predecessors).parents.size = tree.parents.size :=
  size_sweep predecessors tree tree.parents.size

theorem sweep_later (position other : Nat) (bound : position ≤ tree.parents.size) (later : position ≤ other) :
    (sweep predecessors tree position).parent? other = tree.parent? other := by
  induction position with
  | zero => rfl
  | succ position ih =>
    rcases Nat.eq_zero_or_pos position with zero | after
    · subst zero
      rw [sweep_one]
    · have different : other ≠ position := by omega
      rw [sweep_succ predecessors tree position after,
        parent_update predecessors _ position other (by rw [size_sweep]; omega), if_neg different]
      exact ih (by omega) (by omega)

theorem sweep_earlier (position : Nat) {limit : Nat} (other : Nat) (bound : limit ≤ tree.parents.size) (order : position ≤ limit)
    (earlier : other < position) :
    (sweep predecessors tree limit).parent? other = (sweep predecessors tree position).parent? other := by
  induction order with
  | refl => rfl
  | @step limit order ih =>
    have before : position ≤ limit := order
    rw [sweep_succ predecessors tree limit (by omega),
      parent_update predecessors _ limit other (by rw [size_sweep]; omega), if_neg (by omega)]
    exact ih (by omega)

end

structure Ordered (predecessors : Nat → List Nat) (size : Nat) : Prop where
  positive : 0 < size
  inside : ∀ position, ∀ q ∈ predecessors position, q < size
  earlier : ∀ position, 0 < position → position < size → ∃ q ∈ predecessors position, q < position

section

variable {predecessors : Nat → List Nat} {size : Nat} (ordered : Ordered predecessors size)

include ordered

theorem sweep_rooted (rooted : tree.Rooted) (measured : tree.parents.size = size) (position : Nat) (bound : position ≤ size) :
    (sweep predecessors tree position).Rooted ∧
      ∀ other < position, ((sweep predecessors tree position).parent? other).isSome := by
  induction position with
  | zero => exact ⟨rooted, fun other impossible => absurd impossible (Nat.not_lt_zero other)⟩
  | succ position ih =>
    obtain ⟨before, placed⟩ := ih (by omega)
    rcases Nat.eq_zero_or_pos position with zero | after
    · subst zero
      refine ⟨rooted, fun other first => ?_⟩
      have same : other = 0 := by omega
      rw [same, sweep_one, rooted.root]
      rfl
    · rw [sweep_succ predecessors tree position after]
      obtain ⟨q, member, earlier⟩ := ordered.earlier position after (by omega)
      obtain ⟨joined, result, spec⟩ := before.join_spec member (placed q earlier)
      have higher := (spec joined).mp (above_refl _ joined) q member (placed q earlier)
      have order := above_le _ higher
      have grounded := before.above_placed (placed q earlier) higher
      have read : ∀ other, (update predecessors (sweep predecessors tree position) position).parent? other =
          if other = position then some joined else (sweep predecessors tree position).parent? other := by
        intro other
        rw [parent_update predecessors _ position other (by rw [size_sweep]; omega), result]
        rfl
      have kept : ∀ other, ((sweep predecessors tree position).parent? other).isSome →
          ((update predecessors (sweep predecessors tree position) position).parent? other).isSome := by
        intro other present
        rw [read]
        split
        · rfl
        · exact present
      refine ⟨⟨?_, ?_, ?_⟩, ?_⟩
      · rw [read, if_neg (by omega)]
        exact before.root
      · intro other parent
        rw [read]
        split
        · intro same _
          cases same
          omega
        · exact before.below other parent
      · intro other parent
        rw [read]
        split
        · intro same
          cases same
          exact kept joined grounded
        · intro same
          exact kept parent (before.grounded other parent same)
      · intro other earlier
        by_cases same : other = position
        · rw [read, if_pos same]
          rfl
        · exact kept other (placed other (by omega))

theorem round_rooted (rooted : tree.Rooted) (measured : tree.parents.size = size) :
    (tree.round predecessors).Rooted ∧ ∀ other < size, ((tree.round predecessors).parent? other).isSome := by
  rw [round_eq_sweep, measured]
  exact sweep_rooted ordered rooted measured size (le_refl size)

theorem above_round (rooted : tree.Rooted) (measured : tree.parents.size = size) (a : Nat) (after : 0 < position)
    (inside : position < size) :
    (tree.round predecessors).Above a position ↔ a = position ∨
      ∀ q ∈ predecessors position, ((sweep predecessors tree position).parent? q).isSome →
        (sweep predecessors tree position).Above a q := by
  obtain ⟨before, placed⟩ := sweep_rooted ordered rooted measured position (by omega)
  obtain ⟨q, member, earlier⟩ := ordered.earlier position after inside
  obtain ⟨joined, result, spec⟩ := before.join_spec member (placed q earlier)
  have higher := (spec joined).mp (above_refl _ joined) q member (placed q earlier)
  have order := above_le _ higher
  have read : (tree.round predecessors).parent? position = some joined := by
    rw [round_eq_sweep, sweep_earlier predecessors tree (position + 1) position (le_rfl)
      (by omega) (by omega), sweep_succ predecessors tree position after,
      parent_update predecessors _ position position (by rw [size_sweep]; omega), if_pos rfl, result]
    rfl
  rw [(round_rooted ordered rooted measured).1.above_iff read after, ← spec a]
  rw [above_congr (tree.round predecessors) (sweep predecessors tree position) a joined]
  intro other bound
  rw [round_eq_sweep]
  exact sweep_earlier predecessors tree position other (le_rfl) (by omega) (by omega)

omit ordered in
theorem above_round_earlier (measured : tree.parents.size = size) (a : Nat) (inside : position ≤ size) (earlier : q < position) :
    (sweep predecessors tree position).Above a q ↔ (tree.round predecessors).Above a q := by
  apply above_congr
  intro other bound
  rw [round_eq_sweep]
  exact (sweep_earlier predecessors tree position other (le_rfl) (by omega) (by omega)).symm

-- What holds of the tree after each round.
structure Settling (predecessors : Nat → List Nat) (size : Nat) (tree : DominatorTree) : Prop where
  rooted : tree.Rooted
  measured : tree.parents.size = size
  placed : ∀ position < size, (tree.parent? position).isSome
  forward : ∀ position < size, ∀ q ∈ predecessors position, q < position →
    ∀ a, tree.Above a position → a = position ∨ tree.Above a q
  shared : ∀ position, 0 < position → position < size →
    ∀ a, (∀ q ∈ predecessors position, tree.Above a q) → tree.Above a position
  complete : ∀ position < size, ∀ a, OnEveryRoute (fun q p => q ∈ predecessors p) 0 a position → tree.Above a position

theorem first_round (rooted : tree.Rooted) (measured : tree.parents.size = size)
    (bare : ∀ position, 0 < position → tree.parent? position = none) : Settling predecessors size (tree.round predecessors) := by
  obtain ⟨after, placed⟩ := round_rooted ordered rooted measured
  -- In the first round the placed predecessors are the earlier ones.
  have spec : ∀ position a, 0 < position → position < size → ((tree.round predecessors).Above a position ↔ a = position ∨
        ∀ q ∈ predecessors position, q < position → (tree.round predecessors).Above a q) := by
    intro position a positive inside
    rw [above_round ordered rooted measured a positive inside]
    obtain ⟨_, done⟩ := sweep_rooted ordered rooted measured position (by omega)
    have exact : ∀ q, ((sweep predecessors tree position).parent? q).isSome ↔ q < position := by
      intro q
      constructor
      · intro present
        by_contra later
        rw [sweep_later predecessors tree position q (by omega) (by omega), bare q (by omega)] at present
        cases present
      · exact done q
    apply or_congr Iff.rfl
    apply forall₂_congr
    intro q member
    rw [exact q]
    apply forall_congr'
    intro earlier
    exact above_round_earlier measured a (by omega) earlier
  refine ⟨after, (size_round predecessors tree).trans measured, placed, ?_, ?_, ?_⟩
  · intro position inside q member earlier a above
    exact ((spec position a (by omega) inside).mp above).imp id fun all => all q member earlier
  · intro position positive inside a all
    exact (spec position a positive inside).mpr (.inr fun q member _ => all q member)
  · intro position inside a every
    induction position using Nat.strongRecOn with
    | _ position ih =>
      by_cases same : a = position
      · exact same ▸ above_refl _ a
      · rcases Nat.eq_zero_or_pos position with zero | positive
        · exact absurd (on_every_route_root (zero ▸ every)) (zero ▸ same)
        · refine (spec position a positive inside).mpr (.inr fun q member earlier => ?_)
          exact ih q earlier (by omega) (on_every_route_before q every same member)

end

namespace Settling

variable {predecessors : Nat → List Nat} {size : Nat} {tree : DominatorTree}
  (ordered : Ordered predecessors size) (settling : Settling predecessors size tree)

include ordered settling

theorem above_round_iff (a : Nat) (after : 0 < position) (inside : position < size) :
    (tree.round predecessors).Above a position ↔ a = position ∨
      ∀ q ∈ predecessors position, (sweep predecessors tree position).Above a q := by
  rw [above_round ordered settling.rooted settling.measured a after inside]
  obtain ⟨_, done⟩ := sweep_rooted ordered settling.rooted settling.measured position (by omega)
  apply or_congr Iff.rfl
  apply forall₂_congr
  intro q member
  have present : ((sweep predecessors tree position).parent? q).isSome := by
    by_cases earlier : q < position
    · exact done q earlier
    · rw [sweep_later predecessors tree position q (by rw [settling.measured]; omega) (by omega)]
      exact settling.placed q (ordered.inside position q member)
  simp [present]

theorem above_before (after : 0 < position) (inside : position < size) (different : a ≠ position)
    (above : (tree.round predecessors).Above a position) :
    a < position ∧ ∀ q ∈ predecessors position, (sweep predecessors tree position).Above a q := by
  have all := ((settling.above_round_iff ordered a after inside).mp above).resolve_left different
  obtain ⟨t, member, earlier⟩ := ordered.earlier position after inside
  exact ⟨lt_of_le_of_lt (above_le _ (all t member)) earlier, all⟩

-- A position that is still to come in a round has its old chain of ancestors down to the current position,
-- and below it the new ancestors of the first one there.
omit ordered in
theorem later_chain (after : 0 < position) (later : position ≤ q) (inside : q < size) :
    ∃ v < position, tree.Above v q ∧ (∀ u < position, tree.Above u q → tree.Above u v) ∧
      ∀ a < position, (sweep predecessors tree position).Above a q ↔ (tree.round predecessors).Above a v := by
  obtain ⟨rooted, measured, placed, _⟩ := settling
  induction q using Nat.strongRecOn with
  | _ q ih =>
    obtain ⟨parent, read⟩ := Option.isSome_iff_exists.mp (placed q inside)
    have below := rooted.below q parent read (by omega)
    have middle : (sweep predecessors tree position).parent? q = some parent := by
      rw [sweep_later predecessors tree position q (by omega) later, read]
    have stepOld := fun a => tree.above_step a read below
    have stepMiddle := fun a => (sweep predecessors tree position).above_step a middle below
    by_cases earlier : parent < position
    · refine ⟨parent, earlier, (stepOld parent).mpr (.inr (tree.above_refl parent)), ?_, ?_⟩
      · intro u bound above
        exact ((stepOld u).mp above).resolve_left (by omega)
      · intro a bound
        rw [stepMiddle a, above_round_earlier measured a (by omega) earlier]
        constructor
        · intro above
          exact above.resolve_left (by omega)
        · exact .inr
    · obtain ⟨v, first, higher, nearest, spec⟩ := ih parent below (by omega) (by omega)
      refine ⟨v, first, (stepOld v).mpr (.inr higher), ?_, ?_⟩
      · intro u bound above
        exact nearest u bound (((stepOld u).mp above).resolve_left (by omega))
      · intro a bound
        rw [stepMiddle a, ← spec a bound]
        constructor
        · intro above
          exact above.resolve_left (by omega)
        · exact .inr

theorem round_shrinks (inside : position < size) (above : (tree.round predecessors).Above a position) :
    tree.Above a position := by
  induction position using Nat.strongRecOn with
  | _ position ih =>
    by_cases same : a = position
    · exact same ▸ tree.above_refl a
    rcases Nat.eq_zero_or_pos position with zero | after
    · exact absurd ((above_zero _ a).mp (zero ▸ above)) (zero ▸ same)
    obtain ⟨first, all⟩ := settling.above_before ordered after inside same above
    refine settling.shared position after inside a fun q member => ?_
    have bound := ordered.inside position q member
    by_cases earlier : q < position
    · apply ih q earlier bound
      rw [← above_round_earlier settling.measured a (by omega) earlier]
      exact all q member
    · obtain ⟨v, below, higher, _, spec⟩ := settling.later_chain after (by omega) bound
      have upper := ih v below (by omega) ((spec a first).mp (all q member))
      exact tree.above_trans upper higher

theorem round_forward (a : Nat) (inside : position < size) (member : q ∈ predecessors position) (earlier : q < position)
    (above : (tree.round predecessors).Above a position) : a = position ∨ (tree.round predecessors).Above a q := by
  refine ((settling.above_round_iff ordered a (by omega) inside).mp above).imp id fun all => ?_
  rw [← above_round_earlier settling.measured a (by omega) earlier]
  exact all q member

-- Going back along earlier predecessors from `q` leads past every old ancestor of `q`.
theorem handed_back {v : Nat} {holds : Nat → Prop} (inside : q < size) (old : tree.Above v q) (start : holds q)
    (back : ∀ p < size, v < p → ∀ t ∈ predecessors p, t < p → holds p → holds t) : holds v := by
  induction q using Nat.strongRecOn with
  | _ q ih =>
    by_cases same : v = q
    · exact same ▸ start
    · have bound := tree.above_le old
      obtain ⟨t, member, earlier⟩ := ordered.earlier q (by omega) inside
      apply ih t earlier (by omega)
      · exact (settling.forward q inside t member earlier v old).resolve_left same
      · exact back q inside (by omega) t member earlier start

theorem above_round_of (after : 0 < position) (inside : position < size)
    (early : ∀ q ∈ predecessors position, q < position → (tree.round predecessors).Above a q)
    (late : ∀ q ∈ predecessors position, tree.Above a q ∧
      ∀ v < position, a ≤ v → tree.Above v q → (tree.round predecessors).Above a v) : (tree.round predecessors).Above a position := by
  obtain ⟨t, here, before⟩ := ordered.earlier position after inside
  have first : a < position := lt_of_le_of_lt (above_le _ (early t here before)) before
  refine (settling.above_round_iff ordered a after inside).mpr (.inr fun q member => ?_)
  by_cases earlier : q < position
  · rw [above_round_earlier settling.measured a (by omega) earlier]
    exact early q member earlier
  · obtain ⟨v, below, higher, nearest, spec⟩ := settling.later_chain after (by omega) (ordered.inside position q member)
    obtain ⟨old, passes⟩ := late q member
    rw [spec a first]
    exact passes v below (tree.above_le (nearest a first old)) higher

theorem round_shared (a : Nat) (after : 0 < position) (inside : position < size)
    (all : ∀ q ∈ predecessors position, (tree.round predecessors).Above a q) : (tree.round predecessors).Above a position := by
  refine settling.above_round_of ordered after inside (fun q member _ => all q member) fun q member => ?_
  have bound := ordered.inside position q member
  refine ⟨settling.round_shrinks ordered bound (all q member), fun v _ order old => ?_⟩
  exact settling.handed_back ordered bound old (all q member) fun p inside later t member earlier above =>
    (settling.round_forward ordered a inside member earlier above).resolve_left (by omega)

theorem round_complete (a : Nat) (inside : position < size) (every : OnEveryRoute (fun q p => q ∈ predecessors p) 0 a position) :
    (tree.round predecessors).Above a position := by
  induction position using Nat.strongRecOn with
  | _ position ih =>
    by_cases same : a = position
    · exact same ▸ above_refl _ a
    rcases Nat.eq_zero_or_pos position with zero | after
    · exact absurd (on_every_route_root (zero ▸ every)) (zero ▸ same)
    · have back := fun q member => on_every_route_before q every same member
      refine settling.above_round_of ordered after inside (fun q member earlier => ih q earlier (by omega) (back q member))
        fun q member => ?_
      have bound := ordered.inside position q member
      refine ⟨settling.complete q bound a (back q member), fun v below order old => ih v below (by omega) ?_⟩
      exact settling.handed_back ordered bound old (back q member) fun p _ later t member _ every =>
        on_every_route_before t every (by omega) member

theorem next_round : Settling predecessors size (tree.round predecessors) := by
  obtain ⟨rooted, placed⟩ := round_rooted ordered settling.rooted settling.measured
  exact ⟨rooted, (size_round predecessors tree).trans settling.measured, placed,
    fun position inside q member earlier a => settling.round_forward ordered a inside member earlier,
    fun position after inside a => settling.round_shared ordered a after inside,
    fun position inside a => settling.round_complete ordered a inside⟩

end Settling

def weight (tree : DominatorTree) (size : Nat) : Nat := ∑ position ∈ Finset.range size, (tree.parent? position).getD 0

theorem eq_of_parents {other : DominatorTree} (size : tree.parents.size = other.parents.size)
    (same : ∀ position < tree.parents.size, tree.parent? position = other.parent? position) : tree = other := by
  suffices parents : tree.parents = other.parents by
    cases tree
    cases other
    exact congrArg mk parents
  apply Array.ext size
  intro position first second
  simpa [parent?, first, second] using same position first

theorem weight_bound (size : Nat) (rooted : tree.Rooted) : tree.weight size ≤ size * size := by
  have each : ∀ position ∈ Finset.range size, (tree.parent? position).getD 0 ≤ size := by
    intro position member
    have inside := Finset.mem_range.mp member
    cases read : tree.parent? position with
    | none => exact Nat.zero_le size
    | some parent =>
      rcases Nat.eq_zero_or_pos position with zero | after
      · rw [zero, rooted.root] at read
        cases read
        exact Nat.zero_le size
      · have below := rooted.below position parent read after
        simp only [Option.getD_some]
        omega
  calc tree.weight size ≤ ∑ _position ∈ Finset.range size, size := Finset.sum_le_sum each
    _ = size * size := by simp

namespace Settling

variable {predecessors : Nat → List Nat} {size : Nat} {tree : DominatorTree}
  (ordered : Ordered predecessors size) (settling : Settling predecessors size tree)

include ordered settling

theorem round_parent_le (inside : position < size) :
    ((tree.round predecessors).parent? position).getD 0 ≤ (tree.parent? position).getD 0 := by
  have next := settling.next_round ordered
  obtain ⟨parent, read⟩ := Option.isSome_iff_exists.mp (settling.placed position inside)
  obtain ⟨newParent, newRead⟩ := Option.isSome_iff_exists.mp (next.placed position inside)
  rw [read, newRead]
  rcases Nat.eq_zero_or_pos position with zero | after
  · rw [zero, next.rooted.root] at newRead
    cases newRead
    exact Nat.zero_le _
  · have below := next.rooted.below position newParent newRead after
    have above : (tree.round predecessors).Above newParent position :=
      (next.rooted.above_iff newRead after).mpr (.inr (above_refl _ newParent))
    have old := settling.round_shrinks ordered inside above
    rw [settling.rooted.above_iff read after] at old
    exact tree.above_le (old.resolve_left (by omega))

theorem weight_falls (changed : tree.round predecessors ≠ tree) :
    (tree.round predecessors).weight size < tree.weight size := by
  have next := settling.next_round ordered
  apply Finset.sum_lt_sum
  · intro position member
    exact settling.round_parent_le ordered (Finset.mem_range.mp member)
  by_contra unchanged
  apply changed
  apply eq_of_parents
  · exact next.measured.trans settling.measured.symm
  intro position bound
  rw [next.measured] at bound
  have smaller := settling.round_parent_le ordered bound
  have equal : ((tree.round predecessors).parent? position).getD 0 = (tree.parent? position).getD 0 := by
    apply le_antisymm smaller
    by_contra falls
    exact unchanged ⟨position, Finset.mem_range.mpr bound, Nat.lt_of_not_le falls⟩
  obtain ⟨parent, read⟩ := Option.isSome_iff_exists.mp (settling.placed position bound)
  obtain ⟨newParent, newRead⟩ := Option.isSome_iff_exists.mp (next.placed position bound)
  rw [read, newRead] at equal ⊢
  exact congrArg some equal

end Settling

section

variable {predecessors : Nat → List Nat} {size : Nat} (ordered : Ordered predecessors size)

include ordered

theorem stabilize_ends (fuel : Nat) (settling : Settling predecessors size tree) (enough : tree.weight size < fuel) :
    ∃ rounds, stabilize predecessors fuel tree = .ok ((round predecessors)^[rounds] tree) ∧
      Settling predecessors size ((round predecessors)^[rounds] tree) ∧
      ((round predecessors)^[rounds] tree).round predecessors = (round predecessors)^[rounds] tree := by
  induction fuel generalizing tree with
  | zero => omega
  | succ fuel ih =>
    rw [stabilize]
    by_cases stable : tree.round predecessors = tree
    · exact ⟨0, if_pos stable, settling, stable⟩
    · have falls := settling.weight_falls ordered stable
      obtain ⟨rounds, result, final, fixed⟩ := ih (settling.next_round ordered) (by omega)
      exact ⟨rounds + 1, (if_neg stable).trans result, final, fixed⟩

omit ordered in
theorem parent_unplaced (positive : 0 < size) (position : Nat) :
    (unplaced size).parent? position = if position = 0 then some 0 else none := by
  by_cases zero : position = 0
  · simp [unplaced, parent?, zero, positive]
  · by_cases inside : position < size
    · simp [unplaced, parent?, zero, inside, Ne.symm zero]
    · simp [unplaced, parent?, zero, inside]

omit ordered in
theorem unplaced_rooted (positive : 0 < size) : (unplaced size).Rooted := by
  have read := parent_unplaced positive
  refine ⟨by simp [read], ?_, ?_⟩
  · intro position parent found after
    rw [read, if_neg (by omega)] at found
    cases found
  · intro position parent found
    rw [read] at found
    split at found
    · cases found
      simp [read]
    · cases found

theorem build_ends : ∃ rounds, build predecessors size = .ok ((round predecessors)^[rounds] (unplaced size)) ∧
      Settling predecessors size ((round predecessors)^[rounds] (unplaced size)) ∧
      ((round predecessors)^[rounds] (unplaced size)).round predecessors =
        (round predecessors)^[rounds] (unplaced size) := by
  have rooted := unplaced_rooted ordered.positive
  have measured : (unplaced size).parents.size = size := by simp [unplaced]
  have bare : ∀ position, 0 < position → (unplaced size).parent? position = none := by
    intro position after
    rw [parent_unplaced ordered.positive, if_neg (Nat.ne_of_gt after)]
  have settling := first_round ordered rooted measured bare
  have start : build predecessors size = if (unplaced size).round predecessors = unplaced size then .ok (unplaced size)
      else stabilize predecessors (size * size + size) ((unplaced size).round predecessors) := rfl
  rw [start]
  by_cases stable : (unplaced size).round predecessors = unplaced size
  · exact ⟨0, if_pos stable, stable ▸ settling, stable⟩
  · have bound := weight_bound size settling.rooted
    obtain ⟨rounds, result, final, fixed⟩ :=
      stabilize_ends ordered (size * size + size) settling (by have := ordered.positive; omega)
    exact ⟨rounds + 1, (if_neg stable).trans result, final, fixed⟩

theorem rounds_rooted (rounds : Nat) : ((round predecessors)^[rounds] (unplaced size)).Rooted ∧
    ((round predecessors)^[rounds] (unplaced size)).parents.size = size := by
  induction rounds with
  | zero => exact ⟨unplaced_rooted ordered.positive, by simp [unplaced]⟩
  | succ rounds ih =>
    rw [Function.iterate_succ_apply']
    exact ⟨(round_rooted ordered ih.1 ih.2).1, (size_round predecessors _).trans ih.2⟩

end

end DominatorTree

end SeaOfNodes
