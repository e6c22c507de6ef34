import Mathlib
import SeaOfNodes.Data.BitSet

/-! A bit set stands for a finite set of numbers. -/

namespace SeaOfNodes.BitSet

open List

section

variable (set other : BitSet) (index place : Nat)

theorem word_grow (count : Nat) : (set.grow count).word index = set.word index := by
  simp only [word, grow, Array.getD_eq_getD_getElem?, Array.getElem?_append, Array.getElem?_replicate]
  by_cases inside : index < set.words.size
  · simp [inside]
  · simp only [inside, if_false, Array.getElem?_eq_none (Nat.le_of_not_gt inside), Option.getD_none]
    split <;> rfl

theorem contains_insert : (set.insert index).contains place ↔ place = index ∨ set.contains place := by
  have sized : index / 64 < (set.grow (index / 64 + 1)).words.size := by
    simp only [grow, Array.size_append, Array.size_replicate]
    omega
  have read : ∀ slot, (set.insert index).word slot =
      if slot = index / 64 then set.word slot ||| BitVec.twoPow 64 (index % 64) else set.word slot := by
    intro slot
    by_cases same : slot = index / 64
    · subst same
      rw [if_pos rfl, ← word_grow set (index / 64) (index / 64 + 1)]
      simp [insert, insertNew, word, Array.getD_eq_getD_getElem?, Array.getElem?_modify, Array.getElem?_eq_getElem sized]
    · rw [if_neg same, ← word_grow set slot (index / 64 + 1)]
      simp [insert, insertNew, word, Array.getD_eq_getD_getElem?, Array.getElem?_modify, Ne.symm same]
  rw [contains, contains, read]
  by_cases same : place / 64 = index / 64
  · rw [if_pos same, BitVec.getLsbD_or, Bool.or_eq_true, BitVec.getLsbD_twoPow]
    have low : index % 64 < 64 := Nat.mod_lt _ (by decide)
    have equal : index % 64 = place % 64 ↔ place = index := by omega
    simp only [Bool.and_eq_true, decide_eq_true_eq, low, true_and, equal]
    exact or_comm
  · rw [if_neg same]
    have different : place ≠ index := by
      rintro rfl
      exact same rfl
    simp [different]

theorem insert_new_iff : (set.insertNew index).1 ↔ ¬ set.contains index := by
  have mask : BitVec.twoPow 64 (index % 64) ≠ 0#64 := by
    intro zero
    have bit := BitVec.getLsbD_twoPow (w := 64) (index % 64) (index % 64)
    simp [zero, Nat.mod_lt index (show 0 < 64 by decide)] at bit
  rw [contains, ← word_grow set (index / 64) (index / 64 + 1)]
  show (_ &&& BitVec.twoPow 64 (index % 64) == 0#64) = true ↔ _
  rw [BitVec.and_twoPow, beq_iff_eq]
  split
  · rename_i present
    exact iff_of_false mask (not_not_intro present)
  · rename_i absent
    exact iff_of_true rfl absent

theorem contains_erase : (set.erase index).contains place ↔ set.contains place ∧ place ≠ index := by
  rw [contains, contains, word, word, erase, Array.getD_eq_getD_getElem?, Array.getD_eq_getD_getElem?, Array.getElem?_modify]
  by_cases same : index / 64 = place / 64
  · rw [if_pos same]
    have low : place % 64 < 64 := Nat.mod_lt _ (by decide)
    have equal : place % 64 = index % 64 ↔ place = index := by omega
    cases set.words[place / 64]? with
    | none => simp
    | some word => simp [low, equal]
  · rw [if_neg same]
    have apart : place ≠ index := by
      rintro rfl
      exact same rfl
    simp [apart]

theorem contains_with_capacity (bits : Nat) : (withCapacity bits).contains index = false := by
  simp only [contains, word, withCapacity, Array.getD_eq_getD_getElem?, Array.getElem?_replicate]
  split <;> simp

theorem contains_clear : set.clear.contains index = false := by
  simp only [contains, word, clear, Array.getD_eq_getD_getElem?, Array.getElem?_map]
  cases set.words[index / 64]? <;> simp

theorem contains_union : (set.union other).contains index ↔ set.contains index ∨ other.contains index := by
  have read : (set.union other).word (index / 64) = set.word (index / 64) ||| other.word (index / 64) := by
    rw [← word_grow set (index / 64) other.words.size]
    simp only [union, word, Array.getD_eq_getD_getElem?, Array.getElem?_mapIdx]
    cases found : (set.grow other.words.size).words[index / 64]? with
    | some word => rfl
    | none =>
      -- Past the end of both there is nothing to add.
      have past : other.words.size ≤ index / 64 := by
        have short := Array.getElem?_eq_none_iff.mp found
        simp only [grow, Array.size_append, Array.size_replicate] at short
        omega
      simp [Array.getElem?_eq_none past]
  rw [contains, read, BitVec.getLsbD_or, Bool.or_eq_true]
  rfl

theorem contains_fold_insert (items : List Nat) : (items.foldl insert set).contains index ↔ index ∈ items ∨ set.contains index := by
  induction items generalizing set with
  | nil => simp
  | cons item rest ih =>
    rw [foldl_cons, ih, contains_insert, mem_cons]
    tauto

theorem contains_iff : set.contains index ↔ ∃ word, set.words[index / 64]? = some word ∧ word.getLsbD (index % 64) := by
  rw [contains, word, Array.getD_eq_getD_getElem?]
  cases set.words[index / 64]? <;> simp

theorem is_empty_iff : set.isEmpty ↔ ∀ index, ¬ set.contains index := by
  rw [isEmpty, Array.all_eq_true]
  constructor
  · intro zero index member
    obtain ⟨word, found, bit⟩ := (set.contains_iff index).mp member
    obtain ⟨inside, rfl⟩ := Array.getElem?_eq_some_iff.mp found
    simp [beq_iff_eq.mp (zero _ inside)] at bit
  · intro none slot inside
    refine beq_iff_eq.mpr (BitVec.eq_of_getLsbD_eq fun bit low => ?_)
    have absent := none (slot * 64 + bit)
    rw [contains_iff, show (slot * 64 + bit) / 64 = slot by omega, show (slot * 64 + bit) % 64 = bit by omega] at absent
    simpa [Array.getElem?_eq_getElem inside] using absent

end

section

variable {word : BitVec 64}

-- Subtracting one keeps just those bits of the word that have one below them.
theorem strip_lowest (nonzero : word ≠ 0#64) (bit : Nat) :
    (word &&& (word - 1#64)).getLsbD bit ↔ word.getLsbD bit ∧ word.ctz.toNat < bit := by
  rw [BitVec.getLsbD_and, Bool.and_eq_true, and_congr_right_iff]
  intro set
  have low := BitVec.lt_of_getLsbD set
  rw [← BitVec.not_neg, BitVec.getLsbD_not, BitVec.getLsbD_neg, set]
  simp only [low, decide_true, Bool.true_and, Bool.true_xor, Bool.not_not, decide_eq_true_eq]
  constructor
  · rintro ⟨place, lower, found⟩
    by_contra above
    rw [BitVec.getLsbD_false_of_lt_ctz (by omega)] at found
    cases found
  · exact fun lower => ⟨_, lower, BitVec.getLsbD_true_ctz_of_ne_zero nonzero⟩

theorem mem_bits_of (bit : Nat) : bit ∈ bitsOf word ↔ word.getLsbD bit := by
  fun_induction bitsOf word with
  | case1 => simp
  | case2 word nonzero ih =>
    rw [mem_cons, ih, strip_lowest nonzero]
    constructor
    · rintro (rfl | later)
      · exact BitVec.getLsbD_true_ctz_of_ne_zero nonzero
      · exact later.1
    intro set
    have least : word.ctz.toNat ≤ bit := by
      by_contra above
      rw [BitVec.getLsbD_false_of_lt_ctz (by omega)] at set
      cases set
    rcases Nat.eq_or_lt_of_le least with same | lower
    · exact .inl same.symm
    · exact .inr ⟨set, lower⟩

theorem bits_of_ascending : (bitsOf word).Pairwise (· < ·) := by
  fun_induction bitsOf word with
  | case1 => exact .nil
  | case2 word nonzero ih =>
    exact pairwise_cons.mpr ⟨fun bit later => ((strip_lowest nonzero bit).mp ((mem_bits_of bit).mp later)).2, ih⟩

theorem population_below (bits : Nat) : word.cpopNatRec bits 0 = ((range bits).filter word.getLsbD).length := by
  induction bits with
  | zero => rfl
  | succ bits ih =>
    rw [BitVec.cpopNatRec_succ, BitVec.cpopNatRec_eq, ih, range_succ, filter_append, length_append]
    cases set : word.getLsbD bits <;> simp [set]

theorem bits_of_length : (bitsOf word).length = word.cpop.toNat := by
  rw [BitVec.toNat_cpop, population_below]
  refine Perm.length_eq ((perm_ext_iff_of_nodup (bits_of_ascending.imp ne_of_lt) (nodup_range.filter _)).mpr fun bit => ?_)
  rw [mem_bits_of, mem_filter, mem_range, iff_and_self]
  exact BitVec.lt_of_getLsbD

end

section

variable (set : BitSet)

theorem mem_to_list (index : Nat) : index ∈ set.toList ↔ set.contains index := by
  simp only [toList, mem_flatMap, mem_map, mem_bits_of, mem_zipIdx_iff_getElem?, Array.getElem?_toList]
  rw [contains_iff]
  constructor
  · rintro ⟨⟨word, slot⟩, found, bit, set, rfl⟩
    have low := BitVec.lt_of_getLsbD set
    rw [show (slot * 64 + bit) / 64 = slot by omega, show (slot * 64 + bit) % 64 = bit by omega]
    exact ⟨word, found, set⟩
  · rintro ⟨word, found, set⟩
    exact ⟨(word, index / 64), found, index % 64, set, by omega⟩

theorem to_list_ascending : set.toList.Pairwise (· < ·) := by
  refine pairwise_flatMap.mpr ⟨?_, ?_⟩
  · intro entry _
    exact pairwise_map.mpr (bits_of_ascending.imp fun lower => by omega)
  have slots : set.words.toList.zipIdx.Pairwise (·.2 < ·.2) := by
    rw [← pairwise_map, zipIdx_map_snd]
    exact pairwise_lt_range'
  refine slots.imp fun {low high} below first early second late => ?_
  obtain ⟨bit, set, rfl⟩ := mem_map.mp early
  obtain ⟨other, _, rfl⟩ := mem_map.mp late
  have := BitVec.lt_of_getLsbD ((mem_bits_of bit).mp set)
  omega

theorem count_eq : set.count = set.toList.length := by
  have counts (words : List (BitVec 64)) (start : Nat) : (words.map fun word => word.cpop.toNat).sum =
      ((words.zipIdx start).map fun entry => ((bitsOf entry.1).map (entry.2 * 64 + ·)).length).sum := by
    induction words generalizing start with
    | nil => rfl
    | cons word rest ih => simp [ih (start + 1), bits_of_length]
  rw [toList, length_flatMap]
  exact counts _ 0

end

-- A set that is made in steps, with the members that the steps give it.
inductive Made : BitSet → Finset Nat → Prop where
  | empty : Made empty ∅
  | withCapacity (bits : Nat) : Made (withCapacity bits) ∅
  | insert {set : BitSet} {members : Finset Nat} (made : Made set members) (index : Nat) :
      Made (set.insertNew index).2 (Insert.insert index members)
  | erase {set : BitSet} {members : Finset Nat} (made : Made set members) (index : Nat) :
      Made (set.erase index) (members.erase index)
  | clear {set : BitSet} {members : Finset Nat} (made : Made set members) : Made set.clear ∅
  | union {set other : BitSet} {members others : Finset Nat} (made : Made set members) (more : Made other others) :
      Made (set.union other) (members ∪ others)

theorem made_contains {set : BitSet} {members : Finset Nat} (made : Made set members) (index : Nat) :
    set.contains index ↔ index ∈ members := by
  induction made with
  | empty => simp [contains, word, empty]
  | withCapacity bits => simp [contains_with_capacity]
  | @insert set members _ added ih => exact (set.contains_insert added index).trans (by rw [ih, Finset.mem_insert])
  | @erase set members _ removed ih => rw [contains_erase, ih, Finset.mem_erase, and_comm]
  | clear => simp [contains_clear]
  | union _ _ ih more => rw [contains_union, ih, more, Finset.mem_union]

theorem bit_set_holds_members (set : BitSet) (members : Finset Nat) (made : Made set members) :
    (∀ index, set.contains index ↔ index ∈ members) ∧ (∀ index, (set.insertNew index).1 ↔ index ∉ members) ∧
      set.count = members.card ∧ (set.isEmpty ↔ members = ∅) ∧
      set.toList.Pairwise (· < ·) ∧ ∀ index, index ∈ set.toList ↔ index ∈ members := by
  have listed (index : Nat) : index ∈ set.toList ↔ index ∈ members := (set.mem_to_list index).trans (made_contains made index)
  refine ⟨made_contains made, fun index => ?_, ?_, ?_, set.to_list_ascending, listed⟩
  · rw [insert_new_iff, made_contains made]
  · have same : set.toList.toFinset = members := Finset.ext fun index => mem_toFinset.trans (listed index)
    rw [count_eq, ← same, toFinset_card_of_nodup (set.to_list_ascending.imp ne_of_lt)]
  · simp only [is_empty_iff, made_contains made, Finset.eq_empty_iff_forall_notMem]

theorem word_boundaries_held :
    Made (((empty.insertNew 64).2.insertNew 63).2.union ((withCapacity 1).insertNew 128).2) {63, 64, 128} ∧
      (((empty.insertNew 64).2.insertNew 63).2.union ((withCapacity 1).insertNew 128).2).count = 3 := by
  have made : Made (((empty.insertNew 64).2.insertNew 63).2.union ((withCapacity 1).insertNew 128).2)
      ({63, 64} ∪ {128}) := .union (.insert (.insert .empty 64) 63) (.insert (.withCapacity 1) 128)
  exact ⟨made, (bit_set_holds_members _ _ made).2.2.1.trans (by decide)⟩

end SeaOfNodes.BitSet
