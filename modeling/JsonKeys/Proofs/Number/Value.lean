import JsonKeys.Number.Basic
import Mathlib.Algebra.Order.Field.Power
import Mathlib.Data.Rat.Cast.Order
import Mathlib.Order.Monotone.Basic
import Mathlib.Tactic.Ring

/-!
The exact values of numbers. Every float is a whole multiple of the least positive one, and the
multiples rise from place to place on the number line.
-/
namespace JsonKeys

namespace Binary64

/-- The rational number that a float is. -/
def value (x : Binary64) : ℚ := (if x.negative then -1 else 1) * (x.mantissa * 2 ^ x.exponent)

/-- How many of the least positive floats make one. -/
def unitsPerOne : Nat := 2 ^ 1074

theorem unitsPerOne_pos : 0 < unitsPerOne := by
  rw [unitsPerOne]
  exact pow_pos two_pos 1074

/-- The magnitude of a rank, in units of the least positive one. -/
def rankUnits (rank : Nat) : Nat :=
  (if rank < 2 ^ 52 then rank else 2 ^ 52 + rank % 2 ^ 52) * 2 ^ (max (rank / 2 ^ 52) 1 - 1)

/-- The float at a place on the number line, in the same units. -/
def units (place : Int) : Int := place.sign * rankUnits place.natAbs

/-- From one magnitude to the next it is as far as the exponent of the first says. -/
theorem rankUnits_succ (rank : Nat) :
    rankUnits (rank + 1) = rankUnits rank + 2 ^ (max (rank / 2 ^ 52) 1 - 1) := by
  unfold rankUnits
  rcases Nat.lt_trichotomy (rank % 2 ^ 52 + 1) (2 ^ 52) with hin | hcarry | hout
  · have hquot : (rank + 1) / 2 ^ 52 = rank / 2 ^ 52 := by omega
    have hrem : (rank + 1) % 2 ^ 52 = rank % 2 ^ 52 + 1 := by omega
    rw [hquot, hrem]
    split
    · rw [if_pos (by omega), Nat.add_mul, Nat.one_mul]
    · rw [if_neg (by omega), ← Nat.add_assoc, Nat.add_mul, Nat.one_mul]
  · -- the mantissa runs over into the exponent
    have hquot : (rank + 1) / 2 ^ 52 = rank / 2 ^ 52 + 1 := by omega
    have hrem : (rank + 1) % 2 ^ 52 = 0 := by omega
    have hmant : rank % 2 ^ 52 = 2 ^ 52 - 1 := by omega
    rw [hquot, hrem, hmant, if_neg (by omega)]
    split
    · have hzero : rank / 2 ^ 52 = 0 := by omega
      rw [hzero]
      norm_num
      omega
    · have hexp : max (rank / 2 ^ 52 + 1) 1 - 1 = (max (rank / 2 ^ 52) 1 - 1) + 1 := by omega
      rw [hexp, Nat.pow_succ]
      omega
  · omega

theorem rankUnits_strictMono : StrictMono rankUnits := by
  apply strictMono_nat_of_lt_succ
  intro rank
  have hpos : 0 < 2 ^ (max (rank / 2 ^ 52) 1 - 1) := Nat.two_pow_pos _
  rw [rankUnits_succ]
  omega

theorem units_natCast (rank : Nat) : units rank = rankUnits rank := by
  unfold units
  rcases Nat.eq_zero_or_pos rank with rfl | hpos
  · decide
  · rw [Int.sign_eq_one_of_pos (Int.natCast_pos.mpr hpos), Int.one_mul, Int.natAbs_natCast]

theorem units_neg (place : Int) : units (-place) = -units place := by
  rw [units, units, Int.sign_neg, Int.natAbs_neg, Int.neg_mul]

theorem units_lt_succ (place : Int) : units place < units (place + 1) := by
  rcases lt_or_ge place 0 with hdown | hup
  · obtain ⟨rank, rfl⟩ : ∃ rank : Nat, place = -(rank + 1 : Nat) := ⟨(-place - 1).toNat, by omega⟩
    have hlt := rankUnits_strictMono (Nat.lt_succ_self rank)
    have hsucc : -((rank + 1 : Nat) : Int) + 1 = -(rank : Int) := by omega
    rw [hsucc, units_neg, units_neg, units_natCast, units_natCast]
    exact Int.neg_lt_neg (Int.ofNat_lt.mpr hlt)
  · obtain ⟨rank, rfl⟩ := Int.eq_ofNat_of_zero_le hup
    have hlt := rankUnits_strictMono (Nat.lt_succ_self rank)
    have hsucc : (rank : Int) + 1 = (rank + 1 : Nat) := rfl
    rw [hsucc, units_natCast, units_natCast]
    exact Int.ofNat_lt.mpr hlt

theorem units_lt_iff {place other : Int} : units place < units other ↔ place < other :=
  (strictMono_int_of_lt_succ units_lt_succ).lt_iff_lt

theorem units_inj {place other : Int} : units place = units other ↔ place = other :=
  (strictMono_int_of_lt_succ units_lt_succ).injective.eq_iff

theorem magnitude_eq (x : Binary64) :
    x.mantissa * (2 : ℚ) ^ x.exponent = rankUnits x.rank / unitsPerOne := by
  have hexp : x.exponent = (max (x.rank / 2 ^ 52) 1 - 1 : Nat) - (1074 : Nat) := by
    unfold exponent
    rw [Nat.shiftRight_eq_div_pow]
    omega
  have hmant : x.mantissa = if x.rank < 2 ^ 52 then x.rank else 2 ^ 52 + x.rank % 2 ^ 52 := rfl
  have hone : (2 : ℚ) ^ (1074 : Nat) = unitsPerOne := by
    rw [unitsPerOne, Nat.cast_pow, Nat.cast_ofNat]
  rw [hexp, hmant, zpow_sub₀ two_ne_zero, zpow_natCast, zpow_natCast, hone, rankUnits, Nat.cast_mul,
    Nat.cast_pow, Nat.cast_ofNat, mul_div_assoc]

theorem value_eq (x : Binary64) : x.value = units x.place / unitsPerOne := by
  unfold value place
  rw [magnitude_eq]
  split
  · rw [units_neg, units_natCast, Int.cast_neg, Int.cast_natCast, neg_one_mul, neg_div]
  · rw [units_natCast, Int.cast_natCast, one_mul]

theorem value_lt_iff {x y : Binary64} : x.value < y.value ↔ x.place < y.place := by
  have hpos : (0 : ℚ) < unitsPerOne := Nat.cast_pos.mpr unitsPerOne_pos
  rw [value_eq, value_eq, div_lt_div_iff_of_pos_right hpos, Int.cast_lt, units_lt_iff]

theorem value_eq_iff {x y : Binary64} : x.value = y.value ↔ x.place = y.place := by
  have hne : (unitsPerOne : ℚ) ≠ 0 := Nat.cast_ne_zero.mpr unitsPerOne_pos.ne'
  rw [value_eq, value_eq, div_left_inj' hne, Int.cast_inj, units_inj]

end Binary64

/-- The rational number that a number is. -/
def Number.value : Number → ℚ
  | integer n _ => n
  | float x => x.value

end JsonKeys
