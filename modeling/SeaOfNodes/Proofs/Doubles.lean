import Mathlib
import SeaOfNodes.Double.Basic

/-! Doubles of whole numbers. -/

namespace SeaOfNodes.Double

theorem magnitude_of_magnitude (magnitude : Nat) (small : magnitude < signUnit) :
    (ofMagnitude false magnitude).magnitude = magnitude ∧ (ofMagnitude false magnitude).isNegative = false := by
  have unit : signUnit = 9223372036854775808 := rfl
  have bits : (ofMagnitude false magnitude).bits.toNat = magnitude :=
    UInt64.toNat_ofNat_of_lt' (show magnitude < UInt64.size by have : UInt64.size = 18446744073709551616 := rfl; omega)
  refine ⟨?_, ?_⟩
  · rw [Double.magnitude, bits, Nat.mod_eq_of_lt small]
  · rw [isNegative, bits, Nat.div_eq_of_lt small]
    rfl

-- A number that fits a word is its leading bit and the bits behind it, moved up to fill the fraction.
theorem magnitude_of_nat {n : Nat} (some : n ≠ 0) (small : n < 2 ^ 32) :
    ∃ top fraction, top < 32 ∧ fraction < exponentUnit ∧ magnitudeOfNat n = (1023 + top) * exponentUnit + fraction ∧
      exponentUnit + fraction = n * 2 ^ (52 - top) := by
  have unit : exponentUnit = 2 ^ 52 := rfl
  have top : n.log2 < 32 := (Nat.log2_lt some).mpr small
  have low : 2 ^ n.log2 ≤ n := Nat.log2_self_le some
  have high : n < 2 ^ (n.log2 + 1) := Nat.lt_log2_self
  have split : 2 ^ n.log2 * 2 ^ (52 - n.log2) = 2 ^ 52 := by
    rw [← pow_add]
    congr 1
    omega
  have least : exponentUnit ≤ n * 2 ^ (52 - n.log2) := by
    rw [unit, ← split]
    exact Nat.mul_le_mul_right _ low
  have most : n * 2 ^ (52 - n.log2) < 2 * exponentUnit := by
    calc
      n * 2 ^ (52 - n.log2) < 2 ^ (n.log2 + 1) * 2 ^ (52 - n.log2) := Nat.mul_lt_mul_of_pos_right high (by positivity)
      _ = 2 * exponentUnit := by rw [pow_succ, Nat.mul_right_comm, split, unit, mul_comm]
  refine ⟨n.log2, n * 2 ^ (52 - n.log2) - exponentUnit, top, by omega, ?_, by omega⟩
  rw [magnitudeOfNat, if_neg some]
  dsimp only
  rw [if_pos (by omega), Nat.shiftLeft_eq]

theorem clamped_of_uint32 {n : UInt32} : (ofUInt32 n).toUInt32Clamped = n := by
  have bound : n.toNat < 2 ^ 32 := n.toNat_lt_size
  by_cases zero : n.toNat = 0
  · have same : n = 0 := UInt32.toNat_inj.mp zero
    rw [same]
    decide
  obtain ⟨top, fraction, few, inside, made, whole⟩ := magnitude_of_nat zero bound
  have unit : exponentUnit = 4503599627370496 := rfl
  have sign : signUnit = 9223372036854775808 := rfl
  have infinity : infinityMagnitude = 2047 * exponentUnit := rfl
  have number : ofUInt32 n = ofMagnitude false (magnitudeOfNat n.toNat) := by
    rw [ofUInt32, ofInt, decide_eq_false (Int.not_lt.mpr (Int.natCast_nonneg _)), Int.natAbs_natCast]
  have below : magnitudeOfNat n.toNat < infinityMagnitude := by
    rw [made, infinity]
    nlinarith
  obtain ⟨magnitude, positive⟩ := magnitude_of_magnitude (magnitudeOfNat n.toNat) (by omega)
  have exponent : (ofMagnitude false (magnitudeOfNat n.toNat)).exponent = 1023 + top := by
    rw [Double.exponent, magnitude, made, mul_comm, Nat.mul_add_div (by omega), Nat.div_eq_of_lt inside, add_zero]
  have rest : (ofMagnitude false (magnitudeOfNat n.toNat)).fraction = fraction := by
    rw [Double.fraction, magnitude, made, mul_comm, Nat.mul_add_mod, Nat.mod_eq_of_lt inside]
  have part : (ofMagnitude false (magnitudeOfNat n.toNat)).integerPart = n.toNat := by
    rw [integerPart, scale, significand, exponent, rest, if_neg (by omega), if_neg (by omega), whole, Nat.shiftRight_eq_div_pow,
      show 1074 - (1023 + top - 1) = 52 - top by omega]
    exact Nat.mul_div_cancel _ (by positivity)
  rw [number, toUInt32Clamped, positive, part, isNaN, isFinite, magnitude]
  have least : Nat.min 4294967295 n.toNat = n.toNat := Nat.min_eq_right (by omega)
  simp only [below, not_lt.mpr (le_of_lt below), decide_false, decide_true, Bool.or_self, Bool.not_true,
    Bool.false_eq_true, if_false, least]
  exact UInt32.ofNat_toNat

end SeaOfNodes.Double
