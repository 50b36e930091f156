import DeviceCode.Binary32
import Mathlib.Data.Nat.Bitwise

/-!
# Floats of integers

Rounding keeps the sign of an integer: the nearest float of an integer is a number that is below, at or
above zero as the integer is.
-/

namespace DeviceCode.Binary32

theorem ofMagnitude_bounds {m : Nat} (hm : 0 < m) :
    0 < (ofMagnitude ⟨m, 0⟩).toNat ∧ (ofMagnitude ⟨m, 0⟩).toNat ≤ 0x7F800000 := by
  unfold ofMagnitude
  rw [if_neg (by simp only; omega)]
  dsimp only
  -- the unit is not below `2 ^ -23`, so the exponent alone makes the bits positive
  generalize hunit : max (0 + ((m.log2 : Nat) : Int) - 23) (-149) = unit
  generalize Magnitude.roundAt ⟨m, 0⟩ unit = k
  split
  · have hbits : (k + (unit + 149).toNat * 0x800000).toUInt32.toNat =
        k + (unit + 149).toNat * 0x800000 := by
      simp only [Nat.toUInt32, UInt32.toNat_ofNat']
      omega
    omega
  · decide

section
variable {b : UInt32} (hb : b.toNat ≤ 0x7F800000)
include hb

theorem unsigned_of_le : unsigned b = b := by
  apply UInt32.toNat_inj.1
  show b.toNat &&& (2 ^ 31 - 1) = _
  rw [Nat.and_two_pow_sub_one_eq_mod]
  omega

theorem isNegative_of_le : isNegative b = false := by
  have hand : b &&& signBit = 0 := by
    apply UInt32.toNat_inj.1
    show b.toNat &&& 2 ^ 31 = 0
    rw [Nat.and_two_pow, Nat.testBit_lt_two_pow (by omega)]
    rfl
  rw [isNegative, hand]
  rfl

theorem toNat_or_signBit : (b ||| signBit).toNat = 2 ^ 31 + b.toNat := by
  have hor := Nat.two_pow_add_eq_or_of_lt (show b.toNat < 2 ^ 31 by omega) 1
  rw [Nat.mul_one] at hor
  rw [hor, Nat.or_comm]
  rfl

theorem unsigned_or_signBit : unsigned (b ||| signBit) = b := by
  apply UInt32.toNat_inj.1
  rw [unsigned, UInt32.toNat_and, toNat_or_signBit hb]
  show (2 ^ 31 + b.toNat) &&& (2 ^ 31 - 1) = _
  rw [Nat.and_two_pow_sub_one_eq_mod]
  omega

theorem isNegative_or_signBit : isNegative (b ||| signBit) = true := by
  have hand : ((b ||| signBit) &&& signBit).toNat = 2 ^ 31 := by
    rw [UInt32.toNat_and, toNat_or_signBit hb]
    show (2 ^ 31 + b.toNat) &&& 2 ^ 31 = 2 ^ 31
    rw [Nat.and_two_pow, Nat.testBit_two_pow_add_eq, Nat.testBit_lt_two_pow (by omega)]
    rfl
  rw [isNegative, bne_iff_ne]
  intro hzero
  rw [hzero] at hand
  cases hand

end

/-- The float of an integer is a number of its sign. -/
theorem rank_ofInt (n : Int) : isNaN (ofInt n) = false ∧ (rank (ofInt n) < 0 ↔ n < 0) ∧
    (0 < rank (ofInt n) ↔ 0 < n) := by
  rcases Int.lt_trichotomy n 0 with hn | rfl | hn
  · obtain ⟨hpos, hle⟩ := ofMagnitude_bounds (show 0 < n.natAbs by omega)
    have hunsigned := unsigned_or_signBit hle
    rw [ofInt, withSign, if_pos (by simpa using hn), rank, if_pos (isNegative_or_signBit hle), isNaN,
      hunsigned, decide_eq_false_iff_not]
    exact ⟨Nat.not_lt.2 hle, by omega⟩
  · decide
  · obtain ⟨hpos, hle⟩ := ofMagnitude_bounds (show 0 < n.natAbs by omega)
    have hunsigned := unsigned_of_le hle
    rw [ofInt, withSign, if_neg (by simpa using Int.le_of_lt hn), rank,
      if_neg (by rw [isNegative_of_le hle]; decide), isNaN, hunsigned, decide_eq_false_iff_not]
    exact ⟨Nat.not_lt.2 hle, by omega⟩

theorem less_zero (n : Int) : less 0 (ofInt n) = decide (0 < n) ∧ less (ofInt n) 0 = decide (n < 0) := by
  obtain ⟨hnan, hneg, hpos⟩ := rank_ofInt n
  have hzero : rank 0 = 0 := by decide
  have hnumber : isNaN 0 = false := by decide
  simp [less, isOrdered, hnan, hzero, hnumber, hneg, hpos]

end DeviceCode.Binary32
