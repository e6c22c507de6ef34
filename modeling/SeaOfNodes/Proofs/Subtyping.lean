import SeaOfNodes.Value.ValueType

/-! Subtyping, overlap and joins, and the bounds of numbers. -/

namespace SeaOfNodes

open Double Interval

variable {i j k : Interval} {c : ValueType} {more : Kinds} {x y z : Double}

theorem Double.le_iff : x.le y ↔ x.isNaN = false ∧ y.isNaN = false ∧ x.key ≤ y.key := by
  simp [le, and_assoc]

theorem Double.le_trans (first : x.le y) (second : y.le z) : x.le z := by
  rw [le_iff] at first second ⊢
  exact ⟨first.1, second.2.1, Int.le_trans first.2.2 second.2.2⟩

theorem Double.between_infinities (number : x.isNaN = false) : negInfinity.le x ∧ x.le posInfinity := by
  have bound : x.magnitude ≤ infinityMagnitude := Nat.not_lt.mp (of_decide_eq_false number)
  have low : negInfinity.key = -infinityMagnitude := by decide
  have high : posInfinity.key = infinityMagnitude := by decide
  have between : -infinityMagnitude ≤ x.key ∧ x.key ≤ infinityMagnitude := by
    rw [key]
    split <;> omega
  rw [le_iff, le_iff, low, high]
  exact ⟨⟨by decide, number, between.1⟩, number, by decide, between.2⟩

theorem Double.min_choice (x y : Double) : x.min y = x ∨ x.min y = y := by
  unfold min
  split
  · exact .inr rfl
  · split
    · exact .inl rfl
    · split <;> simp

theorem Double.max_choice (x y : Double) : x.max y = x ∨ x.max y = y := by
  unfold max
  split
  · exact .inr rfl
  · split
    · exact .inl rfl
    · split <;> simp

theorem Double.min_le (first : x.isNaN = false) (second : y.isNaN = false) : (x.min y).le x ∧ (x.min y).le y := by
  rcases Int.lt_or_le x.key y.key with less | more
  · simp [min, lt, le, first, second, less, Int.le_of_lt]
  · simp [min, lt, le, first, second, more, Int.not_lt.mpr]

theorem Double.le_max (first : x.isNaN = false) (second : y.isNaN = false) : x.le (x.max y) ∧ y.le (x.max y) := by
  rcases Int.lt_or_le y.key x.key with less | more
  · simp [max, lt, le, first, second, less, Int.le_of_lt]
  · simp [max, lt, le, first, second, more, Int.not_lt.mpr]

theorem Interval.inside_iff : i.inside j ↔ j.min.le i.min ∧ i.max.le j.max = true :=
  Bool.and_eq_true_iff

theorem Kinds.within_iff {a b : Kinds} : a.within b ↔ ∀ bit, a.getLsbD bit → b.getLsbD bit := by
  rw [Kinds.within, beq_iff_eq]
  constructor
  · intro same bit set
    rw [← same, BitVec.getLsbD_and, Bool.and_eq_true] at set
    exact set.2
  · intro sub
    ext bit
    have := sub bit
    cases set : a[bit] <;> simp_all

theorem Kinds.meets_iff {a b : Kinds} : a.meets b ↔ ∃ bit, a.getLsbD bit ∧ b.getLsbD bit := by
  rw [Kinds.meets, bne_iff_ne]
  constructor
  · intro some
    refine Classical.byContradiction fun apart => some ?_
    ext bit
    have := fun first second => apart ⟨bit, first, second⟩
    simp_all
  · rintro ⟨bit, first, second⟩ none
    have set := congrArg (BitVec.getLsbD · bit) none
    simp [first, second] at set

theorem Kinds.within_or (a b : Kinds) : a.within (a ||| b) ∧ b.within (a ||| b) := by
  simp +contextual [Kinds.within_iff]

theorem Kinds.within_trans {a b c : Kinds} (first : a.within b) (second : b.within c) : a.within c = true :=
  Kinds.within_iff.mpr fun bit set => Kinds.within_iff.mp second bit (Kinds.within_iff.mp first bit set)

theorem Interval.inside_self (ordered : i.min.le i.max) : i.inside i := by
  rw [le_iff] at ordered
  simp [inside, le_iff, ordered.1, ordered.2.1]

theorem Interval.inside_trans (first : i.inside j) (second : j.inside k) : i.inside k = true :=
  inside_iff.mpr ⟨le_trans (inside_iff.mp second).1 (inside_iff.mp first).1,
    le_trans (inside_iff.mp first).2 (inside_iff.mp second).2⟩

theorem Interval.hull_inside (first : i.inside k) (second : j.inside k) : (i.hull j).inside k := by
  rw [inside_iff] at first second ⊢
  rw [hull]
  constructor
  · rcases min_choice i.min j.min with same | same <;> rw [same]
    · exact first.1
    · exact second.1
  · rcases max_choice i.max j.max with same | same <;> rw [same]
    · exact first.2
    · exact second.2

theorem Interval.hull_bounds (first : i.min.le i.max) (second : j.min.le j.max) :
    (i.hull j).min.le (i.hull j).max ∧ i.inside (i.hull j) ∧ j.inside (i.hull j) := by
  have low := min_le (le_iff.mp first).1 (le_iff.mp second).1
  have high := le_max (le_iff.mp first).2.1 (le_iff.mp second).2.1
  exact ⟨le_trans (le_trans low.1 first) high.1, inside_iff.mpr ⟨low.1, high.1⟩, inside_iff.mpr ⟨low.2, high.2⟩⟩

-- Numbers from 2 ^ 30 to 2 ^ 31 - 1 are `otherSigned32`, which an interval of words without a sign leaves out.
def Interval.Gapped (i j : Interval) : Prop :=
  j.inside ⟨.zero, .ofInt 4294967295⟩ = true ∧ j.inside ⟨.ofInt (-2147483648), .ofInt 2147483647⟩ = false ∧
    i.inside ⟨.ofInt (-2147483648), .ofInt 2147483647⟩ = true ∧ i.inside ⟨smallMin, smallMax⟩ = false

theorem Interval.kinds_within_iff (inside : i.inside j) : i.kinds.within j.kinds ↔ ¬ i.Gapped j := by
  have inherit (bound : Interval) : j.inside bound → i.inside bound := inside_trans inside
  have signed (k : Interval) (small : k.inside ⟨smallMin, smallMax⟩) : k.inside ⟨.ofInt (-2147483648), .ofInt 2147483647⟩ :=
    inside_trans small (by decide)
  have ladder : ∀ small word unsigned small' word' unsigned' : Bool, (small' → small) → (word' → word) → (unsigned' → unsigned) →
      (small → word) → (small' → word') →
      (Kinds.within (if small then .signedSmall else if word then .signed32 else if unsigned then Kinds.integral32.without .otherSigned32
        else .plainNumber) (if small' then .signedSmall else if word' then .signed32 else if unsigned' then
        Kinds.integral32.without .otherSigned32 else .plainNumber) ↔ ¬ (unsigned' ∧ word' = false ∧ word ∧ small = false)) := by
    decide
  exact ladder _ _ _ _ _ _ (inherit _) (inherit _) (inherit _) (signed i) (signed j)

namespace ValueType

variable {a b : ValueType}

inductive Formed : ValueType → Prop
  | kinds (kinds : Kinds) : Formed (ofKinds kinds)
  | range {min max : Double} {type : ValueType} (ordered : ofRange min max = .ok type) : Formed type
  | number (value : Double) : Formed (ofNumber value)
  | object (object : ObjectRef) (kinds : Kinds) : Formed (ofObject object kinds)
  | union {a b : ValueType} (left : Formed a) (right : Formed b) : Formed (a.union b)

-- No value of `a` is a number, so that the interval of `b` says nothing about them.
def Obscured (a b : ValueType) : Prop :=
  a.range = none ∧ a.kinds ≠ .none ∧ a.kinds.meets .number = false ∧ b.range ≠ none

theorem union_range (known : i ∈ (a.union b).range) :
    (∃ mine ∈ a.range, ∃ theirs ∈ b.range, i = mine.hull theirs) ∨ i ∈ a.range ∨ i ∈ b.range := by
  obtain ⟨kinds, range, object⟩ := a
  obtain ⟨others, interval, ref⟩ := b
  cases range <;> cases interval <;> simp only [union] at known
  · cases known
  · split at known
    · cases known
    · exact .inr (.inr known)
  · split at known
    · cases known
    · exact .inr (.inl known)
  · cases known
    exact .inl ⟨_, rfl, _, rfl, rfl⟩

def lowest (small signed unsigned : Bool) : Double :=
  if small then smallMin else if signed then .ofInt (-2147483648) else if unsigned then .ofInt 2147483648 else .negInfinity

def highest (small signed integral : Bool) : Double :=
  if small then smallMax else if signed then .ofInt 2147483647 else if integral then .ofInt 4294967295 else .posInfinity

def spanned (kinds : Kinds) : Interval := ⟨(ofKinds kinds).min, (ofKinds kinds).max⟩

theorem spanned_eq (kinds : Kinds) : spanned kinds =
    ⟨lowest ((kinds &&& .number).within .signedSmall) ((kinds &&& .number).within .signed32) ((kinds &&& .number).within .otherUnsigned32),
     highest ((kinds &&& .number).within .signedSmall) ((kinds &&& .number).within .signed32) ((kinds &&& .number).within .integral32)⟩ :=
  rfl

theorem spanned_mono {few : Kinds} (sub : few.within more) (numbers : few.meets .number) : (spanned few).inside (spanned more) := by
  have inherit (bound : Kinds) (all : (more &&& .number).within bound) : (few &&& .number).within bound := by
    simp only [Kinds.within_iff, BitVec.getLsbD_and, Bool.and_eq_true] at all sub ⊢
    exact fun bit set => all bit ⟨sub bit set.1, set.2⟩
  -- Words with the highest bit are no other words, so that numbers of both sorts have no bound below.
  have apart (unsigned : (few &&& .number).within .otherUnsigned32) : ¬ (few &&& .number).within .signed32 := by
    intro signed
    obtain ⟨bit, first, second⟩ := Kinds.meets_iff.mp numbers
    have set : (few &&& Kinds.number).getLsbD bit := by simp [first, second]
    have shared := Kinds.meets_iff.mpr ⟨bit, Kinds.within_iff.mp signed bit set, Kinds.within_iff.mp unsigned bit set⟩
    exact absurd shared (by decide)
  have wider (small : (few &&& .number).within .signedSmall) : (few &&& .number).within .signed32 :=
    Kinds.within_trans small (by decide)
  have lower : ∀ small signed unsigned small' signed' unsigned' : Bool, (small' → small) → (signed' → signed) → (unsigned' → unsigned) →
      (unsigned → ¬ signed) → (small → signed) → (lowest small' signed' unsigned').le (lowest small signed unsigned) := by decide
  have upper : ∀ small signed integral small' signed' integral' : Bool, (small' → small) → (signed' → signed) →
      (integral' → integral) → (highest small signed integral).le (highest small' signed' integral') := by decide
  rw [spanned_eq, spanned_eq]
  exact inside_iff.mpr ⟨lower _ _ _ _ _ _ (inherit _) (inherit _) (inherit _) apart wider,
    upper _ _ _ _ _ _ (inherit _) (inherit _) (inherit _)⟩

-- An interval is not empty, and lies within the bounds that the kinds give on their own.
structure Fits (i : Interval) (kinds : Kinds) : Prop where
  ordered : i.min.le i.max = true
  small : Kinds.signedSmall.within kinds = true
  inside : i.inside (spanned kinds) = true

theorem fits_interval (ordered : i.min.le i.max) : Fits i i.kinds := by
  obtain ⟨first, second, _⟩ := le_iff.mp ordered
  have infinite := And.intro (between_infinities first).1 (between_infinities second).2
  unfold Interval.kinds
  split
  next inside => exact ⟨ordered, by decide, inside⟩
  split
  next inside => exact ⟨ordered, by decide, inside⟩
  split
  next inside => exact ⟨ordered, by decide, inside_iff.mpr ⟨infinite.1, (inside_iff.mp inside).2⟩⟩
  next => exact ⟨ordered, by decide, inside_iff.mpr infinite⟩

theorem Fits.widen {kinds : Kinds} (fits : Fits i kinds) (sub : kinds.within more) : Fits i more := by
  have numbers : kinds.meets .number = true :=
    Kinds.meets_iff.mpr ⟨3, Kinds.within_iff.mp fits.small 3 (by decide), by decide⟩
  exact ⟨fits.ordered, Kinds.within_trans fits.small sub, inside_trans fits.inside (spanned_mono sub numbers)⟩

theorem formed_fits (formed : a.Formed) : ∀ i ∈ a.range, Fits i a.kinds := by
  induction formed with
  | kinds | object => rintro i ⟨⟩
  | @range min max type ordered =>
    rw [ofRange] at ordered
    split at ordered
    next sorted =>
      cases ordered
      rintro i ⟨⟩
      exact fits_interval sorted
    next => cases ordered
  | number value =>
    intro i known
    rw [ofNumber] at known ⊢
    split at known
    next => cases known
    next valid =>
      split at known
      · cases known
      · split at known
        next integral =>
          cases known
          rw [if_neg valid, if_neg ‹_›, if_pos integral]
          exact fits_interval (le_iff.mpr ⟨Bool.eq_false_iff.mpr valid, Bool.eq_false_iff.mpr valid, Int.le_refl _⟩)
        next => cases known
  | union _ _ left right =>
    intro i known
    obtain ⟨mine, theirs⟩ := Kinds.within_or _ _
    rcases union_range known with ⟨i, first, j, second, rfl⟩ | first | second
    · have wide := (left i first).widen mine
      have far := (right j second).widen theirs
      exact ⟨(hull_bounds wide.ordered far.ordered).1, wide.small, hull_inside wide.inside far.inside⟩
    · exact (left i first).widen mine
    · exact (right i second).widen theirs

theorem formed_bounds (formed : a.Formed) (i : Interval) (known : i ∈ a.range) : i.min.le i.max = true :=
  (formed_fits formed i known).ordered

theorem part_within_iff (bounds : ∀ i ∈ a.range, i.min.le i.max) (kinds : a.kinds.within c.kinds)
    (object : c.object = none ∨ a.object = c.object)
    (both : ∀ mine ∈ a.range, ∀ theirs ∈ b.range, ∃ i ∈ c.range, mine.inside i)
    (alone : b.range = none → c.range = none ∨ c.range = a.range)
    (taken : a.range = none → c.range = if a.kinds.meets .number then none else b.range) :
    a.within c ↔ ¬ a.Obscured b := by
  have object : (c.object.isNone || a.object == c.object) := by
    rcases object with unknown | same
    · simp [unknown]
    · simp [same]
  simp only [within, kinds, object, Bool.true_and]
  cases mine : a.range with
  | none =>
    rw [taken mine]
    by_cases numbers : a.kinds.meets .number
    · simp [numbers, Obscured]
    · cases theirs : b.range <;> simp [numbers, theirs, mine, Obscured, isBottom]
  | some i =>
    have plain : ¬ a.Obscured b := by simp [Obscured, mine]
    cases theirs : b.range with
    | none =>
      rcases alone theirs with none | same
      · simp [none, plain]
      · simp [same, mine, plain, inside_self (bounds i mine)]
    | some j =>
      obtain ⟨hull, known, inside⟩ := both i mine j theirs
      rw [Option.mem_def.mp known]
      simp [inside, plain]

theorem union_upper_bound_iff (a b : ValueType) (left : a.Formed) (right : b.Formed) :
    (a.within (a.union b) = true ↔ ¬ a.Obscured b) ∧ (b.within (a.union b) = true ↔ ¬ b.Obscured a) := by
  have object : (a.union b).object = none ∨ a.object = (a.union b).object ∧ b.object = (a.union b).object := by
    by_cases same : a.object = b.object
    · simp [union, same]
    · simp [union, same]
  constructor
  · refine part_within_iff (formed_bounds left) (Kinds.within_or _ _).1 (object.imp_right And.left) ?_ ?_ ?_
    · intro mine first theirs second
      exact ⟨_, by simp only [union, Option.mem_def.mp first, Option.mem_def.mp second, Option.mem_def],
        (hull_bounds (formed_bounds left _ first) (formed_bounds right _ second)).2.1⟩
    · intro none
      cases first : a.range <;> simp [union, none, first]
    · intro none
      cases second : b.range <;> simp [union, none, second]
  · refine part_within_iff (formed_bounds right) (Kinds.within_or _ _).2 (object.imp_right And.right) ?_ ?_ ?_
    · intro mine second theirs first
      exact ⟨_, by simp only [union, Option.mem_def.mp first, Option.mem_def.mp second, Option.mem_def],
        (hull_bounds (formed_bounds left _ first) (formed_bounds right _ second)).2.2⟩
    · intro none
      cases second : b.range <;> simp [union, none, second]
    · intro none
      cases first : a.range <;> simp [union, none, first]

theorem one_within_string_or_one :
    ((ofNumber (.ofInt 1)).within (string.union (ofNumber (.ofInt 1))) = true ↔ ¬ (ofNumber (.ofInt 1)).Obscured string) ∧
      ((ofNumber (.ofInt 1)).within (string.union (ofNumber (.ofInt 1))) = true) :=
  ⟨(union_upper_bound_iff string (ofNumber (.ofInt 1)) (.kinds _) (.number _)).2, by decide⟩

-- The join keeps the interval of the number one, and a string has no interval that lies inside.
theorem string_obscured : string.within (string.union (ofNumber (.ofInt 1))) = false := by decide

theorem contained_range_within_iff (lo hi lo' hi' : Double) (low : lo'.le lo) (ordered : lo.le hi) (high : hi.le hi') :
    ∃ inner outer, ofRange lo hi = .ok inner ∧ ofRange lo' hi' = .ok outer ∧
      (inner.within outer ↔ ¬ (Interval.mk lo hi).Gapped ⟨lo', hi'⟩) ∧
      (lo = hi → lo.isIntegral → (lo.isZero && lo.isNegative) = false → ofNumber lo = inner) := by
  refine ⟨_, _, if_pos ordered, if_pos (le_trans (le_trans low ordered) high), ?_, ?_⟩
  · have inside : (Interval.mk lo hi).inside ⟨lo', hi'⟩ := inside_iff.mpr ⟨low, high⟩
    rw [← kinds_within_iff inside]
    simp [within, ofInterval, inside]
  · rintro rfl integral positive
    rw [ofNumber, (le_iff.mp ordered).1, positive, integral]
    rfl

theorem word_within_words : (ofNumber (.ofInt 4000000000)).within (ofInterval ⟨.zero, .ofInt 4294967295⟩) := by
  obtain ⟨inner, outer, first, second, within, same⟩ := contained_range_within_iff (.ofInt 4000000000) (.ofInt 4000000000) .zero
    (.ofInt 4294967295) (by decide) (by decide) (by decide)
  cases first
  cases second
  rw [same rfl (by decide) (by decide)]
  exact within.mpr fun gap => absurd gap.2.2.1 (by decide)

theorem two_billion_outside_words : (ofNumber (.ofInt 2000000000)).within (ofInterval ⟨.zero, .ofInt 4294967295⟩) = false := by
  decide

theorem within_iff : a.within b ↔ a.kinds.within b.kinds ∧ (∀ object ∈ b.object, object ∈ a.object) ∧
    ∀ theirs ∈ b.range, (∃ mine ∈ a.range, mine.inside theirs) ∨ a.range = none ∧ a.kinds = .none := by
  rw [within, Bool.and_eq_true, Bool.and_eq_true, and_assoc]
  refine and_congr_right fun _ => and_congr ?_ ?_
  · cases b.object <;> simp
  · cases a.range <;> cases b.range <;> simp [isBottom]

theorem range_none (formed : a.Formed) (bottom : a.kinds = .none) : a.range = none := by
  refine Option.eq_none_iff_forall_not_mem.mpr fun i known => ?_
  have small := (formed_fits formed i known).small
  rw [bottom] at small
  cases small

theorem within_refl (formed : a.Formed) : a.within a := by
  refine within_iff.mpr ⟨Kinds.within_iff.mpr fun _ => id, fun _ => id, fun i known => .inl ⟨i, known, ?_⟩⟩
  exact inside_self (formed_bounds formed i known)

theorem within_trans (formed : a.Formed) (first : a.within b) (second : b.within c) : a.within c := by
  obtain ⟨kinds, object, inner⟩ := within_iff.mp first
  obtain ⟨more, wider, outer⟩ := within_iff.mp second
  refine within_iff.mpr ⟨Kinds.within_trans kinds more, fun ref known => object ref (wider ref known), fun theirs known => ?_⟩
  rcases outer theirs known with ⟨middle, there, inside⟩ | ⟨_, bottom⟩
  · rcases inner middle there with ⟨mine, here, within⟩ | none
    · exact .inl ⟨mine, here, inside_trans within inside⟩
    · exact .inr none
  · rw [bottom] at kinds
    have none : a.kinds = .none := (beq_iff_eq.mp kinds).symm.trans BitVec.and_zero
    exact .inr ⟨range_none formed none, none⟩

theorem meets_comm : a.meets b = b.meets a := by
  have kinds (c d : Kinds) : c.meets d = d.meets c := by rw [Kinds.meets, Kinds.meets, BitVec.and_comm]
  have rest : a.kinds.meets (b.kinds.without .integral32) = b.kinds.meets (a.kinds.without .integral32) := by
    simp only [Kinds.meets, Kinds.without, ← BitVec.and_assoc, BitVec.and_comm a.kinds]
  rw [meets, meets, kinds, rest]
  cases a.object <;> cases b.object <;> cases a.range <;> cases b.range <;> simp [overlaps, BEq.comm, Bool.and_comm]

theorem meets_of_within (formed : a.Formed) (sub : a.within b) (some : a.isBottom = false) : a.meets b := by
  obtain ⟨kinds, object, inner⟩ := within_iff.mp sub
  have shared : a.kinds.meets b.kinds := by
    rw [Kinds.meets, beq_iff_eq.mp kinds]
    simpa [isBottom, Kinds.none] using some
  rw [meets, shared, Bool.true_and, Bool.and_eq_true]
  constructor
  · cases theirs : b.object with
    | none => cases a.object <;> rfl
    | some ref => simp [Option.mem_def.mp (object ref theirs)]
  cases mine : a.range with
  | none => rfl
  | some i =>
    cases theirs : b.range with
    | none => rfl
    | some j =>
      obtain ⟨_, ⟨⟩, inside⟩ | ⟨none, _⟩ := mine ▸ inner j theirs
      · obtain ⟨low, high⟩ := inside_iff.mp inside
        have ordered := formed_bounds formed i mine
        simp [overlaps, le_trans low ordered, le_trans ordered high]
      · cases none

theorem bounds_of_within (first : a.Formed) (sub : a.within b) (numbers : a.kinds.meets .number) :
    (Interval.mk a.min a.max).inside ⟨b.min, b.max⟩ := by
  obtain ⟨kinds, _, inner⟩ := within_iff.mp sub
  have wider := spanned_mono kinds numbers
  obtain ⟨kinds, range, object⟩ := a
  obtain ⟨more, interval, ref⟩ := b
  cases interval with
  | none =>
    cases range with
    | none => exact wider
    | some i => exact inside_trans (formed_fits first i rfl).inside wider
  | some j =>
    obtain ⟨i, ⟨⟩, inside⟩ | ⟨_, rfl⟩ := inner j rfl
    · exact inside
    · exact absurd (show Kinds.none.meets .number = true from numbers) (by decide)

theorem subtyping_laws (a b c : ValueType) (first : a.Formed) :
    a.within a ∧ (a.within b → b.within c → a.within c) ∧ a.meets b = b.meets a ∧
      (a.within b → a.isBottom = false → a.meets b) ∧
      (a.within b → a.kinds.meets .number → b.min.le a.min ∧ a.max.le b.max) :=
  ⟨within_refl first, within_trans first, meets_comm, meets_of_within first, fun sub numbers =>
    inside_iff.mp (bounds_of_within first sub numbers)⟩

theorem five_within_percentage :
    (ofNumber (.ofInt 5)).within (ofInterval ⟨.ofInt 0, .ofInt 100⟩) ∧ (ofInterval ⟨.ofInt 0, .ofInt 100⟩).within number ∧
      (ofNumber (.ofInt 5)).within number ∧ (ofNumber (.ofInt 5)).meets (ofInterval ⟨.ofInt 0, .ofInt 100⟩) ∧
      (ofInterval ⟨.ofInt 0, .ofInt 100⟩).min.le (ofNumber (.ofInt 5)).min := by
  obtain ⟨_, trans, _, meets, bounds⟩ := subtyping_laws (ofNumber (.ofInt 5)) (ofInterval ⟨.ofInt 0, .ofInt 100⟩) number (.number _)
  have first : (ofNumber (.ofInt 5)).within (ofInterval ⟨.ofInt 0, .ofInt 100⟩) := by decide
  have second : (ofInterval ⟨.ofInt 0, .ofInt 100⟩).within number := by decide
  exact ⟨first, second, trans first second, meets first (by decide), (bounds first (by decide)).1⟩

end ValueType

end SeaOfNodes
