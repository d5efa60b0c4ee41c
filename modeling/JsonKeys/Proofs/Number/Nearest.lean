import JsonKeys.Proofs.Number.Place
import JsonKeys.Proofs.Number.Value
import Mathlib.Algebra.Order.Field.Basic
import Mathlib.Tactic.NormNum

/-!
Integers are rounded to the nearest float, ties to even.
-/
namespace JsonKeys

namespace Binary64

/-- No float is nearer to the integer, and where another one is as near, this one is even. -/
def Nearest (x : Binary64) (n : Int) : Prop :=
  ∀ y : Binary64, |x.value - n| ≤ |y.value - n| ∧
    (y.value ≠ x.value → |y.value - n| = |x.value - n| → x.mantissa % 2 = 0)

/-- How far a place is from a number, both in units of the least positive float. -/
def gap (place target : Int) : Nat := (units place - target).natAbs

/-- No place is nearer to the target, and where another is as near, this one is even. -/
def NearestPlace (place target : Int) : Prop :=
  ∀ other, gap place target ≤ gap other target ∧
    (other ≠ place → gap other target = gap place target → place % 2 = 0)

theorem gap_neg (place target : Int) : gap (-place) (-target) = gap place target := by
  unfold gap
  rw [units_neg]
  omega

theorem NearestPlace.neg {place target : Int} (h : NearestPlace place target) :
    NearestPlace (-place) (-target) := by
  intro other
  have hother := h (-other)
  rw [← gap_neg (-other), Int.neg_neg] at hother
  rw [gap_neg]
  refine ⟨hother.1, fun hne htie => ?_⟩
  have heven := hother.2 (by omega) htie
  omega

/-- Of two neighbours with the target between them the nearer one is the nearest of all, and halfway
the even one. -/
theorem nearestPlace_of_between (place : Int) {target picked : Int} (hlow : units place ≤ target)
    (hhigh : target < units (place + 1))
    (hpicked : (gap place target < gap (place + 1) target ∧ picked = place) ∨
      (gap (place + 1) target < gap place target ∧ picked = place + 1) ∨
        (gap place target = gap (place + 1) target ∧ (picked = place ∨ picked = place + 1) ∧
          picked % 2 = 0)) :
    NearestPlace picked target := by
  intro other
  have hbelow : other < place → gap place target < gap other target := by
    intro h
    have hunits := units_lt_iff.mpr h
    unfold gap
    omega
  have habove : place + 1 < other → gap (place + 1) target < gap other target := by
    intro h
    have hunits := units_lt_iff.mpr h
    unfold gap
    omega
  have hother : other < place ∨ other = place ∨ other = place + 1 ∨ place + 1 < other := by omega
  rcases hpicked with ⟨hnear, rfl⟩ | ⟨hnear, rfl⟩ | ⟨htie, rfl | rfl, heven⟩ <;>
    rcases hother with h | rfl | rfl | h <;> grind

/-- A place below the nearest one is not above the target, and the other way round. -/
theorem NearestPlace.lt_units {place target other : Int} (h : NearestPlace place target)
    (hlt : place < other) :
    target < units other := by
  have hunits := units_lt_iff.mpr hlt
  have hgap := h other
  unfold gap at hgap
  omega

theorem NearestPlace.units_lt {place target other : Int} (h : NearestPlace place target)
    (hlt : other < place) :
    units other < target := by
  have hunits := units_lt_iff.mpr hlt
  have hgap := h other
  unfold gap at hgap
  omega

/-- Only one place is nearest, and even where another is as near. -/
theorem NearestPlace.unique {place target other : Int} (h : NearestPlace place target)
    (hgap : gap other target ≤ gap place target) (heven : other ≠ place → other % 2 = 0) :
    other = place := by
  by_contra hne
  have htie : gap other target = gap place target := Nat.le_antisymm hgap (h other).1
  have hplace := (h other).2 hne htie
  have hother := heven hne
  rcases Int.lt_or_gt_of_ne hne with hlt | hgt
  · -- both are even, so that there is a place between them, which is nearer than both
    have hunits := units_lt_iff.mpr (show other < place - 1 by omega)
    have hunits' := units_lt_iff.mpr (show place - 1 < place by omega)
    have hmid := (h (place - 1)).1
    unfold gap at *
    omega
  · have hunits := units_lt_iff.mpr (show place < place + 1 by omega)
    have hunits' := units_lt_iff.mpr (show place + 1 < other by omega)
    have hmid := (h (place + 1)).1
    unfold gap at *
    omega

/-- From one power of two to the next the magnitudes lie evenly. -/
theorem rankUnits_binade {e m : Nat} (hlow : 2 ^ 52 ≤ m) (hhigh : m ≤ 2 ^ 53) :
    rankUnits (e * 2 ^ 52 + m) = m * 2 ^ e := by
  unfold rankUnits
  rw [if_neg (by omega)]
  rcases Nat.lt_or_eq_of_le hhigh with hlt | rfl
  · have hexp : max ((e * 2 ^ 52 + m) / 2 ^ 52) 1 - 1 = e := by omega
    have hmant : 2 ^ 52 + (e * 2 ^ 52 + m) % 2 ^ 52 = m := by omega
    rw [hexp, hmant]
  · have hexp : max ((e * 2 ^ 52 + 2 ^ 53) / 2 ^ 52) 1 - 1 = e + 1 := by omega
    have hmant : 2 ^ 52 + (e * 2 ^ 52 + 2 ^ 53) % 2 ^ 52 = 2 ^ 52 := by omega
    rw [hexp, hmant, Nat.pow_succ 2 e, Nat.pow_succ 2 52, Nat.mul_assoc, Nat.mul_comm 2 (2 ^ e)]

/-- An integer in units of the least positive float, and the spacing of the floats around it, are
the same multiples of its quotient and its divisor. -/
theorem exists_scale (n : Nat) : ∃ t, 0 < t ∧ n * unitsPerOne = n * 2 ^ (52 - n.log2) * t ∧
    2 ^ (n.log2 + 1022) = 2 ^ (n.log2 - 52) * t := by
  refine ⟨2 ^ (n.log2 + 1022 - (n.log2 - 52)), Nat.two_pow_pos _, ?_, ?_⟩
  · rw [unitsPerOne, Nat.mul_assoc, ← Nat.pow_add]
    congr 2
    omega
  · rw [← Nat.pow_add]
    congr 1
    omega

/-- Where the places around a fraction lie evenly, a unit of the fraction apart, rounding the
fraction finds the nearest one. -/
theorem nearestPlace_roundDiv {base num den t : Nat} (hbase : base % 2 = 0) (hden : 0 < den)
    (ht : 0 < t) (hbelow : units (base + num / den : Nat) = (num / den * (den * t) : Nat))
    (habove : units (base + (num / den + 1) : Nat) = ((num / den + 1) * (den * t) : Nat)) :
    NearestPlace (base + roundDiv num den : Nat) (num * t : Nat) := by
  have hdiv := Nat.div_add_mod num den
  have hrem := Nat.mod_lt num hden
  have htarget : num * t = num / den * (den * t) + num % den * t := by
    calc num * t = (den * (num / den) + num % den) * t := by rw [hdiv]
      _ = num / den * (den * t) + num % den * t := by ring
  have hwhole : (num / den + 1) * (den * t) = num * t + (den - num % den) * t := by
    have hrest : num % den * t + (den - num % den) * t = den * t := by
      rw [← Nat.add_mul, Nat.add_sub_of_le hrem.le]
    rw [htarget, Nat.add_assoc, hrest, Nat.succ_mul]
  have hgap : gap (base + num / den : Nat) (num * t : Nat) = num % den * t := by
    unfold gap
    omega
  have hgap' : gap (base + (num / den + 1) : Nat) (num * t : Nat) = (den - num % den) * t := by
    unfold gap
    omega
  have hless : ∀ {a b : Nat}, a < b → a * t < b * t := fun hab => Nat.mul_lt_mul_of_pos_right hab ht
  have hnext : ((base + num / den : Nat) : Int) + 1 = (base + (num / den + 1) : Nat) := rfl
  apply nearestPlace_of_between (base + num / den : Nat)
  · omega
  · have hpos := hless (show 0 < den - num % den by omega)
    rw [hnext]
    omega
  · rw [hnext, hgap, hgap']
    rcases Nat.lt_trichotomy (2 * (num % den)) den with hdown | htie | hup
    · exact .inl ⟨hless (by omega), by rw [roundDiv_of_lt hdown]⟩
    · have hsame : den - num % den = num % den := by omega
      rw [roundDiv_of_eq htie, hsame]
      exact .inr (.inr ⟨rfl, by omega, by omega⟩)
    · exact .inr (.inl ⟨hless (by omega), by rw [roundDiv_of_gt hup]⟩)

theorem nearestPlace_nearestRank {n : Nat} (h : n ≠ 0) :
    NearestPlace (nearestRank n 1) (n * unitsPerOne : Nat) := by
  obtain ⟨t, ht, htarget, hspacing⟩ := exists_scale n
  have hquot := quotient_bounds h
  have hrank : nearestRank n 1 = (n.log2 + 1022) * 2 ^ 52 +
      roundDiv (n * 2 ^ (52 - n.log2)) (2 ^ (n.log2 - 52)) := by
    rw [nearestRank_one h, significand, Nat.shiftLeft_eq, Nat.shiftLeft_eq, Nat.one_mul]
  rw [hrank, htarget]
  refine nearestPlace_roundDiv (by omega) (Nat.two_pow_pos _) ht ?_ ?_
  · rw [units_natCast, rankUnits_binade hquot.1 (by omega), hspacing]
  · rw [units_natCast, rankUnits_binade (by omega) (by omega), hspacing]

theorem nearestPlace_zero : NearestPlace 0 0 := by
  intro other
  have hzero : gap 0 0 = 0 := by decide
  rw [hzero]
  exact ⟨Nat.zero_le _, fun _ _ => rfl⟩

/-- Every integer is put at its nearest place. -/
theorem nearestPlace_integerPlace (n : Int) :
    NearestPlace (Number.integerPlace n) (n * unitsPerOne) := by
  unfold Number.integerPlace
  rcases Int.lt_trichotomy n 0 with hneg | rfl | hpos
  · have hrank := (nearestPlace_nearestRank (Int.natAbs_ne_zero.mpr hneg.ne)).neg
    have habs : (n.natAbs : Int) = -n := by omega
    rw [Nat.cast_mul, habs, Int.neg_mul, Int.neg_neg] at hrank
    rwa [Int.sign_eq_neg_one_of_neg hneg, neg_one_mul]
  · rw [Int.sign_zero, Int.zero_mul, Int.zero_mul]
    exact nearestPlace_zero
  · have hrank := nearestPlace_nearestRank (Int.natAbs_ne_zero.mpr hpos.ne.symm)
    have habs : (n.natAbs : Int) = n := by omega
    rw [Nat.cast_mul, habs] at hrank
    rwa [Int.sign_eq_one_of_pos hpos, Int.one_mul]

/-- Integers of 64 bits stay among the finite floats. -/
theorem exists_place_eq_integerPlace {n : Int}
    (hn : -0x8000000000000000 ≤ n ∧ n < 0x10000000000000000) :
    ∃ x : Binary64, x.place = Number.integerPlace n := by
  have hmax : nearestRank 0x10000000000000000 1 < 2047 * (1 <<< 52) := by decide +kernel
  have hrank : nearestRank n.natAbs 1 < 2047 * (1 <<< 52) :=
    Nat.lt_of_le_of_lt (nearestRank_one_mono (by omega)) hmax
  unfold Number.integerPlace
  rcases Int.lt_trichotomy n 0 with hneg | rfl | hpos
  · refine ⟨⟨true, nearestRank n.natAbs 1, hrank⟩, ?_⟩
    rw [Int.sign_eq_neg_one_of_neg hneg, neg_one_mul, place, if_pos rfl]
  · refine ⟨⟨false, 0, by decide⟩, ?_⟩
    rw [Int.sign_zero, Int.zero_mul]
    rfl
  · refine ⟨⟨false, nearestRank n.natAbs 1, hrank⟩, ?_⟩
    rw [Int.sign_eq_one_of_pos hpos, Int.one_mul, place, if_neg Bool.false_ne_true]

theorem mantissa_even_iff (x : Binary64) : x.mantissa % 2 = 0 ↔ x.place % 2 = 0 := by
  have hmant : x.mantissa = if x.rank < 2 ^ 52 then x.rank else 2 ^ 52 + x.rank % 2 ^ 52 := rfl
  rw [hmant]
  unfold place
  split <;> split <;> omega

/-- The distance of a float from an integer, in units. -/
theorem abs_value_sub (x : Binary64) (n : Int) :
    |x.value - n| = (gap x.place (n * unitsPerOne) : ℚ) / unitsPerOne := by
  have hpos : (0 : ℚ) < unitsPerOne := Nat.cast_pos.mpr unitsPerOne_pos
  have hsub : x.value - n = ((units x.place - n * unitsPerOne : Int) : ℚ) / unitsPerOne := by
    rw [value_eq, Int.cast_sub, Int.cast_mul, Int.cast_natCast, sub_div,
      mul_div_cancel_right₀ _ hpos.ne']
  rw [hsub, abs_div, abs_of_pos hpos, ← Int.cast_abs, gap, Int.abs_eq_natAbs, Int.cast_natCast]

theorem abs_value_sub_le_iff {x y : Binary64} {n : Int} :
    |x.value - n| ≤ |y.value - n| ↔
      gap x.place (n * unitsPerOne) ≤ gap y.place (n * unitsPerOne) := by
  have hpos : (0 : ℚ) < unitsPerOne := Nat.cast_pos.mpr unitsPerOne_pos
  rw [abs_value_sub, abs_value_sub, div_le_div_iff_of_pos_right hpos, Nat.cast_le]

/-- The nearest float is the one at the place where the integer is put. -/
theorem nearest_iff {n : Int} (hn : -0x8000000000000000 ≤ n ∧ n < 0x10000000000000000)
    {x : Binary64} :
    x.Nearest n ↔ x.place = Number.integerPlace n := by
  have hplace := nearestPlace_integerPlace n
  obtain ⟨y, hy⟩ := exists_place_eq_integerPlace hn
  constructor
  · intro hx
    have hgap := abs_value_sub_le_iff.mp (hx y).1
    rw [hy] at hgap
    refine hplace.unique hgap fun hne => (mantissa_even_iff x).mp ((hx y).2 ?_ ?_)
    · exact fun heq => hne ((value_eq_iff.mp heq).symm.trans hy)
    · refine le_antisymm (abs_value_sub_le_iff.mpr ?_) (hx y).1
      rw [hy]
      exact (hplace x.place).1
  · intro hx z
    rw [abs_value_sub_le_iff, hx, mantissa_even_iff, hx]
    refine ⟨(hplace z.place).1, fun hne htie => (hplace z.place).2 ?_ ?_⟩
    · exact fun heq => hne (value_eq_iff.mpr (heq.trans hx.symm))
    · have hle := abs_value_sub_le_iff.mp htie.le
      rw [hx] at hle
      exact Nat.le_antisymm hle (hplace z.place).1

end Binary64

namespace Number

/-- Of an integer and a float, the float is the one nearest to the integer, and yet not equal to
it. -/
inductive Blurred : Number → Number → Prop
  | integer {n : Int} {hn} {x : Binary64} (h : x.Nearest n) (hne : x.value ≠ n) :
      Blurred (integer n hn) (float x)
  | float {x : Binary64} {n : Int} {hn} (h : x.Nearest n) (hne : x.value ≠ n) :
      Blurred (float x) (integer n hn)

theorem lt_value_of_integerPlace_lt {n : Int} {x : Binary64} (h : integerPlace n < x.place) :
    n < x.value := by
  have hpos : (0 : ℚ) < Binary64.unitsPerOne := Nat.cast_pos.mpr Binary64.unitsPerOne_pos
  have hunits := (Binary64.nearestPlace_integerPlace n).lt_units h
  rw [Binary64.value_eq, lt_div_iff₀ hpos]
  exact_mod_cast hunits

theorem value_lt_of_lt_integerPlace {n : Int} {x : Binary64} (h : x.place < integerPlace n) :
    x.value < n := by
  have hpos : (0 : ℚ) < Binary64.unitsPerOne := Nat.cast_pos.mpr Binary64.unitsPerOne_pos
  have hunits := (Binary64.nearestPlace_integerPlace n).units_lt h
  rw [Binary64.value_eq, div_lt_iff₀ hpos]
  exact_mod_cast hunits

/-- Rounding may put two values in one place, but it never puts them in the wrong order. -/
theorem value_lt_of_place_lt {a b : Number} (h : a.place < b.place) : a.value < b.value := by
  cases a with
  | integer m hm =>
    cases b with
    | integer n hn =>
      have hlt : m < n := Int.not_le.mp fun hle => absurd (integerPlace_mono hle) (Int.not_le.mpr h)
      exact Int.cast_lt.mpr hlt
    | float y => exact lt_value_of_integerPlace_lt h
  | float x =>
    cases b with
    | integer n hn => exact value_lt_of_lt_integerPlace h
    | float y => exact Binary64.value_lt_iff.mpr h

theorem value_lt_of_compare_lt {a b : Number} (h : compare a b = .lt) : a.value < b.value := by
  rcases compare_lt_cases h with hplace | ⟨m, hm, n, hn, rfl, rfl, hlt⟩
  · exact value_lt_of_place_lt hplace
  · exact Int.cast_lt.mpr hlt

/-- What compares equal is equal, or else is an integer beside its nearest float. -/
theorem value_eq_or_blurred {a b : Number} (h : compare a b = .eq) :
    a.value = b.value ∨ Blurred a b := by
  have hplace : ∀ p q : Int, Ord.compare p q = .eq → p = q := fun p q => Int.compare_eq_eq.mp
  cases a with
  | integer m hm =>
    cases b with
    | integer n hn => exact .inl (congrArg Int.cast (hplace m n h))
    | float y =>
      have hnear := (Binary64.nearest_iff hm).mpr (hplace _ _ h).symm
      by_cases heq : y.value = m
      · exact .inl heq.symm
      · exact .inr (.integer hnear heq)
  | float x =>
    cases b with
    | integer n hn =>
      have hnear := (Binary64.nearest_iff hn).mpr (hplace _ _ h)
      by_cases heq : x.value = n
      · exact .inl heq
      · exact .inr (.float hnear heq)
    | float y => exact .inl (Binary64.value_eq_iff.mpr (hplace _ _ h))

theorem Blurred.compare_eq {a b : Number} (h : Blurred a b) : compare a b = .eq := by
  cases h with
  | @integer n hn x h _ => exact Int.compare_eq_eq.mpr ((Binary64.nearest_iff hn).mp h).symm
  | @float x n hn h _ => exact Int.compare_eq_eq.mpr ((Binary64.nearest_iff hn).mp h)

theorem Blurred.value_ne {a b : Number} (h : Blurred a b) : a.value ≠ b.value := by
  cases h with
  | integer _ hne => exact hne.symm
  | float _ hne => exact hne

/-- Numbers are in the order of their values, but for an integer beside a float that is the nearest
to it and not equal to it: those compare equal. -/
theorem compare_eq_value_iff (a b : Number) :
    (compare a b = Ord.compare a.value b.value ↔ ¬Blurred a b) ∧
      (Blurred a b → compare a b = .eq) := by
  refine ⟨⟨?_, ?_⟩, Blurred.compare_eq⟩
  · intro h hblurred
    rw [hblurred.compare_eq] at h
    exact hblurred.value_ne (compare_eq_iff_eq.mp h.symm)
  · intro hblurred
    cases h : compare a b with
    | lt => exact (compare_lt_iff_lt.mpr (value_lt_of_compare_lt h)).symm
    | eq => exact (compare_eq_iff_eq.mpr ((value_eq_or_blurred h).resolve_right hblurred)).symm
    | gt =>
      have hswap : compare b a = .lt := by rw [← compare_swap, h, Ordering.swap_gt]
      exact (compare_gt_iff_gt.mpr (value_lt_of_compare_lt hswap)).symm

/-- The integer behind `2 ^ 53` compares equal to the float `2 ^ 53`, and this to the integer
`2 ^ 53`, which is less. -/
theorem compare_eq_value_iff_behind :
    let x : Binary64 := ⟨false, 1076 * (1 <<< 52), by decide⟩
    let n : Number := .integer 0x20000000000000 (by decide)
    let m : Number := .integer 0x20000000000001 (by decide)
    Blurred m (.float x) ∧ compare m (.float x) = .eq ∧ x.value < m.value ∧
      compare (.float x) n = .eq ∧ compare n m = .lt := by
  intro x n m
  have hvalue : x.value = 0x20000000000000 := by
    have hmant : x.mantissa = 0x10000000000000 := by decide
    have hexp : x.exponent = 1 := by decide
    rw [Binary64.value, hmant, hexp]
    norm_num [x]
  have hnear : x.Nearest 0x20000000000001 :=
    (Binary64.nearest_iff (by decide)).mpr (by decide +kernel)
  have hblurred : Blurred m (.float x) := .integer hnear (by rw [hvalue]; norm_num)
  refine ⟨hblurred, (compare_eq_value_iff m (.float x)).2 hblurred, ?_, by decide +kernel,
    by decide +kernel⟩
  rw [hvalue]
  norm_num [m, value]

end Number

end JsonKeys
