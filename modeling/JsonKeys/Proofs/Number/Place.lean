import JsonKeys.Number.Basic
import Mathlib.Algebra.Group.Nat.Defs

/-!
Integers on the number line of the floats. Rounding keeps their order but may put two of them in one
place, so that being equal does not carry over from number to number, whereas being less does.
-/
namespace JsonKeys

namespace Binary64

/-- A quotient is rounded to its floor or to the next integer. -/
theorem roundDiv_bounds (num den : Nat) :
    num / den ≤ roundDiv num den ∧ roundDiv num den ≤ num / den + 1 := by
  unfold roundDiv
  dsimp only
  split
  · omega
  · split <;> omega

theorem roundDiv_of_lt {num den : Nat} (h : 2 * (num % den) < den) :
    roundDiv num den = num / den := by
  rw [roundDiv, if_pos h]

theorem roundDiv_of_gt {num den : Nat} (h : den < 2 * (num % den)) :
    roundDiv num den = num / den + 1 := by
  rw [roundDiv, if_neg (by omega), if_pos h]

theorem roundDiv_of_eq {num den : Nat} (h : 2 * (num % den) = den) :
    roundDiv num den = num / den + num / den % 2 := by
  rw [roundDiv, if_neg (by omega), if_neg (by omega)]

theorem roundDiv_mono {m n : Nat} (h : m ≤ n) (den : Nat) : roundDiv m den ≤ roundDiv n den := by
  have hm := roundDiv_bounds m den
  have hn := roundDiv_bounds n den
  have hquot : m / den ≤ n / den := Nat.div_le_div_right h
  rcases Nat.lt_or_eq_of_le hquot with hlt | heq
  · omega
  · -- of two numbers with one floor the remainders decide
    have hrem : m % den ≤ n % den := by
      have hm := Nat.div_add_mod m den
      have hn := Nat.div_add_mod n den
      rw [heq] at hm
      omega
    rcases Nat.lt_trichotomy (2 * (m % den)) den with hdown | htie | hup
    · rw [roundDiv_of_lt hdown]
      omega
    · rcases Nat.eq_or_lt_of_le hrem with hsame | hmore
      · exact Nat.le_of_eq (by rw [roundDiv_of_eq htie, roundDiv_of_eq (hsame ▸ htie), heq])
      · have hup : den < 2 * (n % den) := by omega
        rw [roundDiv_of_gt hup]
        omega
    · have hup' : den < 2 * (n % den) := by omega
      exact Nat.le_of_eq (by rw [roundDiv_of_gt hup, roundDiv_of_gt hup', heq])

theorem spacing_one {n : Nat} (h : n ≠ 0) : spacing n 1 = (n.log2 : Int) - 52 := by
  have hone : Nat.log2 1 = 0 := by decide
  have hlog : ((n.log2 : Int) - (0 : Nat) - 52 + 52).toNat = n.log2 := by omega
  have hneg : (-((n.log2 : Int) - (0 : Nat) - 52 + 52)).toNat = 0 := by omega
  have hfits : 1 <<< n.log2 ≤ n <<< 0 := by
    simpa [Nat.one_shiftLeft] using Nat.log2_self_le h
  unfold spacing
  simp only [if_neg h, hone, hlog, hneg, hfits, if_true]
  omega

/-- The digits of an integer once it is cut or filled up to 53 of them. -/
def significand (n : Nat) : Nat := roundDiv (n <<< (52 - n.log2)) (1 <<< (n.log2 - 52))

theorem nearestRank_one {n : Nat} (h : n ≠ 0) :
    nearestRank n 1 = (n.log2 + 1022) * 2 ^ 52 + significand n := by
  have hspacing : ((n.log2 : Int) - 52 + 1074).toNat = n.log2 + 1022 := by omega
  have hup : (-((n.log2 : Int) - 52)).toNat = 52 - n.log2 := by omega
  have hdown : ((n.log2 : Int) - 52).toNat = n.log2 - 52 := by omega
  unfold nearestRank scaledDiv significand
  simp only [spacing_one h, hspacing, hup, hdown, Nat.shiftLeft_eq]

/-- What is rounded to a significand has 53 digits before the point. -/
theorem quotient_bounds {n : Nat} (h : n ≠ 0) :
    2 ^ 52 ≤ n * 2 ^ (52 - n.log2) / 2 ^ (n.log2 - 52) ∧
      n * 2 ^ (52 - n.log2) / 2 ^ (n.log2 - 52) < 2 ^ 53 := by
  have hscale : 2 ^ 52 * 2 ^ (n.log2 - 52) = 2 ^ n.log2 * 2 ^ (52 - n.log2) := by
    rw [← Nat.pow_add, ← Nat.pow_add]
    congr 1
    omega
  have hpos : 0 < 2 ^ (n.log2 - 52) := Nat.two_pow_pos _
  constructor
  · rw [Nat.le_div_iff_mul_le hpos, hscale]
    exact Nat.mul_le_mul_right _ (Nat.log2_self_le h)
  · have hdouble : 2 ^ 53 * 2 ^ (n.log2 - 52) = 2 ^ (n.log2 + 1) * 2 ^ (52 - n.log2) := by
      rw [Nat.pow_succ 2 52, Nat.pow_succ 2 n.log2, Nat.mul_right_comm, hscale, Nat.mul_right_comm]
    rw [Nat.div_lt_iff_lt_mul hpos, hdouble]
    exact Nat.mul_lt_mul_of_pos_right Nat.lt_log2_self (Nat.two_pow_pos _)

theorem significand_bounds {n : Nat} (h : n ≠ 0) :
    2 ^ 52 ≤ significand n ∧ significand n ≤ 2 ^ 53 := by
  have hquot := quotient_bounds h
  have hround := roundDiv_bounds (n * 2 ^ (52 - n.log2)) (2 ^ (n.log2 - 52))
  simp only [significand, Nat.shiftLeft_eq, Nat.one_mul]
  omega

/-- A greater integer has no lower place. -/
theorem nearestRank_one_mono {m n : Nat} (h : m ≤ n) : nearestRank m 1 ≤ nearestRank n 1 := by
  by_cases hm : m = 0
  · subst hm
    have hzero : nearestRank 0 1 = 0 := by decide
    omega
  · have hn : n ≠ 0 := by omega
    have hlog : m.log2 ≤ n.log2 := (Nat.le_log2 hn).mpr (Nat.le_trans (Nat.log2_self_le hm) h)
    rw [nearestRank_one hm, nearestRank_one hn]
    rcases Nat.lt_or_eq_of_le hlog with hlt | heq
    · have hlow := (significand_bounds hn).1
      have hhigh := (significand_bounds hm).2
      omega
    · have hsame : significand m ≤ significand n := by
        unfold significand
        rw [heq]
        apply roundDiv_mono
        rw [Nat.shiftLeft_eq, Nat.shiftLeft_eq]
        exact Nat.mul_le_mul_right _ h
      omega

end Binary64

namespace Number

/-- Where an integer is put among the floats. -/
def integerPlace (n : Int) : Int := n.sign * Binary64.nearestRank n.natAbs 1

theorem integerPlace_mono {m n : Int} (h : m ≤ n) : integerPlace m ≤ integerPlace n := by
  unfold integerPlace
  have hpos : ∀ k : Int, 0 ≤ k → k.sign * (Binary64.nearestRank k.natAbs 1 : Int) =
      Binary64.nearestRank k.natAbs 1 := by
    intro k hk
    rcases Int.lt_or_eq_of_le hk with hlt | rfl
    · rw [Int.sign_eq_one_of_pos hlt, Int.one_mul]
    · decide
  have hneg : ∀ k : Int, k < 0 → k.sign * (Binary64.nearestRank k.natAbs 1 : Int) =
      -Binary64.nearestRank k.natAbs 1 := by
    intro k hk
    rw [Int.sign_eq_neg_one_of_neg hk, Int.neg_mul, Int.one_mul]
  by_cases hm : 0 ≤ m
  · rw [hpos m hm, hpos n (by omega)]
    exact Int.ofNat_le.mpr (Binary64.nearestRank_one_mono (by omega))
  · rw [hneg m (by omega)]
    by_cases hn : 0 ≤ n
    · rw [hpos n hn]
      omega
    · rw [hneg n (by omega)]
      have habs : n.natAbs ≤ m.natAbs := by omega
      have hrank := Binary64.nearestRank_one_mono habs
      omega

theorem compare_swap (a b : Number) : (compare a b).swap = compare b a := by
  cases a <;> cases b <;> exact Int.compare_swap _ _

/-- A number is less than another by its place, or else both are integers. -/
theorem compare_lt_cases {a b : Number} (h : compare a b = .lt) :
    a.place < b.place ∨ ∃ m hm n hn, a = integer m hm ∧ b = integer n hn ∧ m < n := by
  cases a with
  | float x => exact .inl (Int.compare_eq_lt.mp h)
  | integer m hm =>
    cases b with
    | float y => exact .inl (Int.compare_eq_lt.mp h)
    | integer n hn => exact .inr ⟨m, hm, n, hn, rfl, rfl, Int.compare_eq_lt.mp h⟩

theorem place_le_of_compare_lt {a b : Number} (h : compare a b = .lt) : a.place ≤ b.place := by
  rcases compare_lt_cases h with hplace | ⟨m, hm, n, hn, rfl, rfl, hlt⟩
  · exact Int.le_of_lt hplace
  · exact integerPlace_mono (Int.le_of_lt hlt)

theorem compare_lt_of_place_lt {a b : Number} (h : a.place < b.place) : compare a b = .lt := by
  cases a with
  | float x => exact Int.compare_eq_lt.mpr h
  | integer m _ =>
    cases b with
    | float y => exact Int.compare_eq_lt.mpr h
    | integer n _ =>
      have hnot : ¬n ≤ m := fun hle => absurd (integerPlace_mono hle) (Int.not_le.mpr h)
      exact Int.compare_eq_lt.mpr (Int.not_le.mp hnot)

/-- Less than less is less, also where integers and floats are mixed. -/
theorem compare_lt_trans {a b c : Number} (hab : compare a b = .lt) (hbc : compare b c = .lt) :
    compare a c = .lt := by
  rcases compare_lt_cases hab with hplace | ⟨m, hm, n, hn, rfl, rfl, hmn⟩
  · exact compare_lt_of_place_lt (Int.lt_of_lt_of_le hplace (place_le_of_compare_lt hbc))
  · rcases compare_lt_cases hbc with hplace | ⟨n', hn', k, hk, hsame, rfl, hnk⟩
    · exact compare_lt_of_place_lt (Int.lt_of_le_of_lt (place_le_of_compare_lt hab) hplace)
    · obtain rfl := (Number.integer.inj hsame)
      exact Int.compare_eq_lt.mpr (Int.lt_trans hmn hnk)

end Number

end JsonKeys
