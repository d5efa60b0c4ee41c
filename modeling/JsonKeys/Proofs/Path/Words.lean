import JsonKeys.Proofs.Except
import JsonKeys.Proofs.Path.Slice

/-!
Slices in 64-bit words. The positions are found one after another, by a loop that adds the step
until it comes to the stop or the sum is no word. In arrays of fewer than `2 ^ 63` items no other
sum or difference leaves the words, and the loop finds what the slice selects.
-/
namespace JsonKeys

/-- An integer that no 64-bit word holds, where a word was due. -/
structure Overflow where
  value : Int
deriving DecidableEq, Repr

namespace Word

def ofInt (n : Int) : Except Overflow Int64 :=
  if -0x8000000000000000 ≤ n ∧ n < 0x8000000000000000 then .ok (Int64.ofInt n) else .error ⟨n⟩

def add (a b : Int64) : Except Overflow Int64 := ofInt (a.toInt + b.toInt)

def sub (a b : Int64) : Except Overflow Int64 := ofInt (a.toInt - b.toInt)

theorem ofInt_eq_ok_iff {n : Int} {w : Int64} : ofInt n = .ok w ↔ w.toInt = n := by
  unfold ofInt
  constructor
  · intro h
    split at h
    · next hn =>
      rw [← Except.ok.inj h]
      exact Int64.toInt_ofInt_of_le hn.1 hn.2
    · cases h
  · intro h
    subst h
    rw [if_pos ⟨w.le_toInt, w.toInt_lt⟩, Int64.ofInt_toInt]

theorem exists_ofInt {n : Int} (hlo : -0x8000000000000000 ≤ n) (hhi : n < 0x8000000000000000) :
    ∃ w, ofInt n = .ok w ∧ w.toInt = n := by
  have hw : (Int64.ofInt n).toInt = n := Int64.toInt_ofInt_of_le hlo hhi
  exact ⟨Int64.ofInt n, ofInt_eq_ok_iff.mpr hw, hw⟩

theorem not_mem_of_ofInt_eq_error {n : Int} {e : Overflow} (h : ofInt n = .error e) :
    ¬(-0x8000000000000000 ≤ n ∧ n < 0x8000000000000000) := by
  intro hn
  rw [ofInt, if_pos hn] at h
  cases h

theorem toInt_max (a b : Int64) : (max a b).toInt = max a.toInt b.toInt := by
  show (if a ≤ b then b else a).toInt = _
  simp only [Int64.le_iff_toInt_le]
  split <;> omega

theorem toInt_min (a b : Int64) : (min a b).toInt = min a.toInt b.toInt := by
  show (if a ≤ b then a else b).toInt = _
  simp only [Int64.le_iff_toInt_le]
  split <;> omega

end Word

namespace Slice

/-- How far it is from one position to the other in the direction of the step. -/
def gap (step a b : Int) : Nat := if 0 < step then (b - a).toNat else (a - b).toNat

theorem gap_lt {step a b : Int} (h0 : step ≠ 0) (h : Before step a b) :
    gap step (a + step) b < gap step a b := by
  unfold Before at h
  unfold gap
  split at h
  · next hs =>
    rw [if_pos hs, if_pos hs]
    omega
  · next hs =>
    rw [if_neg hs, if_neg hs]
    omega

theorem before_iff_words {step a b : Int64} :
    (0 < step ∧ a < b) ∨ (step < 0 ∧ b < a) ↔
      step.toInt ≠ 0 ∧ Before step.toInt a.toInt b.toInt := by
  unfold Before
  simp only [Int64.lt_iff_toInt_lt, Int64.toInt_zero]
  split <;> omega

/-- The positions from `position` on. A sum that is no word lies behind every stop. -/
def scan (stop step position : Int64) : List UInt64 :=
  if _h : (0 < step ∧ position < stop) ∨ (step < 0 ∧ stop < position) then
    position.toUInt64 :: match _hnext : Word.add position step with
      | .ok next => scan stop step next
      | .error _ => []
  else []
termination_by gap step.toInt position.toInt stop.toInt
decreasing_by
  obtain ⟨h0, hbefore⟩ := before_iff_words.mp _h
  rw [Word.ofInt_eq_ok_iff.mp _hnext]
  exact gap_lt h0 hbefore

/-- Counts a negative bound from the end, and cuts a bound off at the limit on its side. -/
def clampWord (len lower upper bound : Int64) : Except Overflow Int64 :=
  if bound < 0 then do return max (← Word.add bound len) lower else .ok (min bound upper)

def boundWord (len lower upper absent : Int64) (bound : Option Int64) : Except Overflow Int64 :=
  bound.elim (.ok absent) (clampWord len lower upper)

/-- The positions that a slice selects from an array of `len` items, in order. -/
def wordPositions (s : Slice) (len : Nat) : Except Overflow (Option (List UInt64)) :=
  let step := s.step.getD 1
  if step = 0 then .ok none
  else do
    let len := Int64.ofNat len
    let lower : Int64 := if 0 < step then 0 else -1
    let upper ← if 0 < step then .ok len else Word.sub len 1
    let start ← boundWord len lower upper (if 0 < step then lower else upper) s.start
    let stop ← boundWord len lower upper (if 0 < step then upper else lower) s.stop
    return some (scan stop step start)

/-- The stretch of an array that a slice without gaps covers. -/
def wordSpan (s : Slice) (len : Nat) : Except Overflow (Option (UInt64 × UInt64)) :=
  if s.step.getD 1 ≠ 1 then .ok none
  else do
    let len := Int64.ofNat len
    let start ← boundWord len 0 len 0 s.start
    let stop ← boundWord len 0 len len s.stop
    return some (start.toUInt64, (max stop start).toUInt64)

theorem stride_eq_toInt (s : Slice) : s.stride = (s.step.getD 1).toInt := by
  unfold stride
  cases s.step <;> rfl

theorem exists_clampWord {len : Int64} (hlen : 0 ≤ len.toInt) (lower upper bound : Int64) :
    ∃ w, clampWord len lower upper bound = .ok w ∧
      w.toInt = clamp len.toInt lower.toInt upper.toInt bound.toInt := by
  have hlo := bound.le_toInt
  have hhi := len.toInt_lt
  unfold clampWord clamp
  simp only [Int64.lt_iff_toInt_lt, Int64.toInt_zero]
  split
  · next hneg =>
    obtain ⟨sum, hsum, hvalue⟩ :=
      Word.exists_ofInt (n := bound.toInt + len.toInt) (by omega) (by omega)
    refine ⟨max sum lower, ?_, ?_⟩
    · rw [Word.add, hsum]
      rfl
    · rw [Word.toInt_max, hvalue]
  · exact ⟨min bound upper, rfl, Word.toInt_min bound upper⟩

theorem exists_boundWord {len : Int64} (hlen : 0 ≤ len.toInt) (lower upper absent : Int64)
    (bound : Option Int64) :
    ∃ w, boundWord len lower upper absent bound = .ok w ∧
      w.toInt = bound.elim absent.toInt fun n =>
        clamp len.toInt lower.toInt upper.toInt n.toInt := by
  cases bound with
  | none => exact ⟨absent, rfl, rfl⟩
  | some n => exact exists_clampWord hlen lower upper n

theorem exists_bounds_up {s : Slice} {len : Nat} (hlen : len < 0x8000000000000000)
    (hs : 0 < s.stride) :
    ∃ start stop, boundWord (Int64.ofNat len) 0 (Int64.ofNat len) 0 s.start = .ok start ∧
      boundWord (Int64.ofNat len) 0 (Int64.ofNat len) (Int64.ofNat len) s.stop = .ok stop ∧
      start.toInt = s.first len ∧ stop.toInt = s.limit len := by
  have hword : (Int64.ofNat len).toInt = len := Int64.toInt_ofNat_of_lt hlen
  have hnonneg : 0 ≤ (Int64.ofNat len).toInt := by omega
  obtain ⟨start, hstart, hfirst⟩ := exists_boundWord hnonneg 0 (Int64.ofNat len) 0 s.start
  obtain ⟨stop, hstop, hlimit⟩ :=
    exists_boundWord hnonneg 0 (Int64.ofNat len) (Int64.ofNat len) s.stop
  rw [hword] at hfirst hlimit
  refine ⟨start, stop, hstart, hstop, ?_, ?_⟩
  · rw [first, if_pos hs]
    exact hfirst
  · rw [limit, if_pos hs]
    exact hlimit

theorem exists_bounds_down {s : Slice} {len : Nat} (hlen : len < 0x8000000000000000)
    (hs : ¬0 < s.stride) :
    ∃ upper start stop, Word.sub (Int64.ofNat len) 1 = .ok upper ∧
      boundWord (Int64.ofNat len) (-1) upper upper s.start = .ok start ∧
      boundWord (Int64.ofNat len) (-1) upper (-1) s.stop = .ok stop ∧
      start.toInt = s.first len ∧ stop.toInt = s.limit len := by
  have hword : (Int64.ofNat len).toInt = len := Int64.toInt_ofNat_of_lt hlen
  have hnonneg : 0 ≤ (Int64.ofNat len).toInt := by omega
  have hlower : (-1 : Int64).toInt = -1 := rfl
  obtain ⟨upper, hupper, hvalue⟩ :=
    Word.exists_ofInt (n := (Int64.ofNat len).toInt - (1 : Int64).toInt)
      (by rw [Int64.toInt_one]; omega) (by rw [Int64.toInt_one]; omega)
  rw [hword, Int64.toInt_one] at hvalue
  obtain ⟨start, hstart, hfirst⟩ := exists_boundWord hnonneg (-1) upper upper s.start
  obtain ⟨stop, hstop, hlimit⟩ := exists_boundWord hnonneg (-1) upper (-1) s.stop
  rw [hword, hvalue, hlower] at hfirst hlimit
  refine ⟨upper, start, stop, hupper, hstart, hstop, ?_, ?_⟩
  · rw [first, if_neg hs]
    exact hfirst
  · rw [limit, if_neg hs]
    exact hlimit

/-- Both bounds are found in words, as they are in the integers. -/
theorem exists_wordPositions_eq_scan {s : Slice} {len : Nat} (hlen : len < 0x8000000000000000)
    (h0 : s.stride ≠ 0) :
    ∃ start stop, s.wordPositions len = .ok (some (scan stop (s.step.getD 1) start)) ∧
      start.toInt = s.first len ∧ stop.toInt = s.limit len := by
  have hstep : s.step.getD 1 ≠ 0 := by
    intro h
    rw [stride_eq_toInt, h] at h0
    exact h0 rfl
  have hpos : 0 < s.step.getD 1 ↔ 0 < s.stride := by
    rw [stride_eq_toInt, Int64.lt_iff_toInt_lt, Int64.toInt_zero]
  unfold wordPositions
  simp only [if_neg hstep, hpos]
  by_cases hs : 0 < s.stride
  · obtain ⟨start, stop, hstart, hstop, hfirst, hlimit⟩ := exists_bounds_up hlen hs
    simp only [if_pos hs, ok_bind, hstart, hstop]
    exact ⟨start, stop, rfl, hfirst, hlimit⟩
  · obtain ⟨upper, start, stop, hupper, hstart, hstop, hfirst, hlimit⟩ := exists_bounds_down hlen hs
    simp only [if_neg hs, hupper, ok_bind, hstart, hstop]
    exact ⟨start, stop, rfl, hfirst, hlimit⟩

/-- A sum that is no word is past every word in the direction of the step. -/
theorem not_before_of_add_eq_error {step position stop : Int64} {e : Overflow}
    (h : Word.add position step = .error e) :
    ¬Before step.toInt (position.toInt + step.toInt) stop.toInt := by
  have hsum := Word.not_mem_of_ofInt_eq_error h
  have hlo := position.le_toInt
  have hhi := position.toInt_lt
  have hstoplo := stop.le_toInt
  have hstophi := stop.toInt_lt
  unfold Before
  split <;> omega

theorem toNat_toUInt64 {w : Int64} (h : 0 ≤ w.toInt) : (w.toUInt64.toNat : Int) = w.toInt := by
  have hw : 0 ≤ w := by rwa [Int64.le_iff_toInt_le, Int64.toInt_zero]
  rw [Int64.toNat_toUInt64_of_le hw]
  exact Int.toNat_of_nonneg h

/-- The loop visits the terms of the progression. None of them is negative: going up they follow a
start that is not, and going down they come before a stop that is at least -1. -/
theorem progression_scan {stop step position : Int64} (h0 : step.toInt ≠ 0)
    (hup : 0 < step.toInt → 0 ≤ position.toInt) (hdown : ¬0 < step.toInt → -1 ≤ stop.toInt) :
    Progression position.toInt stop.toInt step.toInt
      ((scan stop step position).map UInt64.toNat) := by
  induction position using scan.induct stop step with
  | case1 position h ih =>
    obtain ⟨-, hbefore⟩ := before_iff_words.mp h
    have hnonneg : 0 ≤ position.toInt := by
      unfold Before at hbefore
      split at hbefore <;> omega
    have hhead := toNat_toUInt64 hnonneg
    rw [scan, dif_pos h]
    split
    · next next hnext =>
      have hsum := Word.ofInt_eq_ok_iff.mp hnext
      have hrest := ih next hnext (by omega)
      rw [hsum] at hrest
      exact .cons hhead hbefore hrest
    · next e hnext => exact .cons hhead hbefore (.nil (not_before_of_add_eq_error hnext))
  | case2 position h =>
    have hbefore : ¬Before step.toInt position.toInt stop.toInt :=
      fun hb => h (before_iff_words.mpr ⟨h0, hb⟩)
    rw [scan, dif_neg h]
    exact .nil hbefore

theorem exists_wordPositions {s : Slice} {len : Nat} (hlen : len < 0x8000000000000000)
    (h0 : s.stride ≠ 0) :
    ∃ words, s.wordPositions len = .ok (some words) ∧
      Progression (s.startBound len) (s.stopBound len) s.stride (words.map UInt64.toNat) := by
  obtain ⟨start, stop, hscan, hfirst, hlimit⟩ := exists_wordPositions_eq_scan hlen h0
  have hstep := s.stride_eq_toInt
  refine ⟨_, hscan, ?_⟩
  rw [← first_eq_startBound, ← limit_eq_stopBound, ← hfirst, ← hlimit, hstep]
  apply progression_scan
  · rwa [← hstep]
  · intro hs
    rw [hfirst]
    exact (s.first_limit_up len (hstep ▸ hs)).1
  · intro hs
    rw [hlimit]
    exact (s.first_limit_down len (hstep ▸ hs)).2

/-- The stretch of a slice without gaps is found in words too. -/
theorem exists_wordSpan (s : Slice) {len : Nat} (hlen : len < 0x8000000000000000) :
    ∃ span, s.wordSpan len = .ok span ∧
      span.map (fun ends => (ends.1.toNat, ends.2.toNat)) = s.span? len := by
  have hone : s.step.getD 1 = 1 ↔ s.stride = 1 := by
    rw [stride_eq_toInt, ← Int64.toInt_one, Int64.toInt_inj]
  unfold wordSpan span?
  simp only [ne_eq, hone]
  by_cases h1 : s.stride = 1
  · have hs : 0 < s.stride := by omega
    obtain ⟨start, stop, hstart, hstop, hfirst, hlimit⟩ := exists_bounds_up hlen hs
    have hup := (s.first_limit_up len hs).1
    have hstartNat := toNat_toUInt64 (w := start) (by omega)
    have hstopNat := toNat_toUInt64 (w := max stop start) (by rw [Word.toInt_max]; omega)
    rw [Word.toInt_max] at hstopNat
    refine ⟨some (start.toUInt64, (max stop start).toUInt64), ?_, ?_⟩
    · rw [if_neg (by simpa using h1), hstart, ok_bind, hstop, ok_bind]
      rfl
    · have hfirstNat : start.toUInt64.toNat = (s.first len).toNat := by omega
      have hlimitNat : (max stop start).toUInt64.toNat =
          max (s.limit len).toNat (s.first len).toNat := by omega
      rw [if_pos h1, Option.map_some, hfirstNat, hlimitNat]
  · exact ⟨none, by rw [if_pos h1], by rw [if_neg h1]; rfl⟩

theorem wordPositions_of_stride {s : Slice} (h : s.stride = 0) (len : Nat) :
    s.wordPositions len = .ok none := by
  rw [stride_eq_toInt, ← Int64.toInt_zero, Int64.toInt_inj] at h
  rw [wordPositions, if_pos h]

/-- In words a slice selects the terms from its start on, a step apart, that come before its stop,
and nothing only if its step is zero. They are the positions that it selects by number. -/
theorem wordPositions_progression (s : Slice) {len : Nat} (hlen : len < 0x8000000000000000) :
    (s.wordPositions len = .ok none ↔ s.step = some 0) ∧
    (s.positions? len = none ↔ s.step = some 0) ∧
    (s.step ≠ some 0 → ∃ (words : List UInt64) (ks : List (Fin len)),
      s.wordPositions len = .ok (some words) ∧ s.positions? len = some ks ∧
      words.map UInt64.toNat = ks.map Fin.val ∧
      Progression (s.startBound len) (s.stopBound len) s.stride (words.map UInt64.toNat) ∧
      (∀ word ∈ words, word.toNat < len) ∧
      (0 < s.stride → words.Pairwise fun i j => i.toNat < j.toNat) ∧
      (s.stride < 0 → words.Pairwise fun i j => j.toNat < i.toNat)) := by
  refine ⟨⟨?_, ?_⟩, positions?_eq_none_iff.trans stride_eq_zero_iff, ?_⟩
  · intro hnone
    by_cases h0 : s.stride = 0
    · exact stride_eq_zero_iff.mp h0
    · obtain ⟨words, hwords, -⟩ := exists_wordPositions hlen h0
      rw [hnone] at hwords
      cases hwords
  · exact fun hstep => wordPositions_of_stride (stride_eq_zero_iff.mpr hstep) len
  · intro hstep
    have h0 : s.stride ≠ 0 := fun h => hstep (stride_eq_zero_iff.mp h)
    obtain ⟨words, hwords, hprogression⟩ := exists_wordPositions hlen h0
    obtain ⟨ks, hks⟩ :=
      Option.ne_none_iff_exists'.mp fun hnone => h0 (positions?_eq_none_iff.mp hnone)
    have heq := hprogression.unique (progression_of_positions? hks).2
    have hpairwise := List.pairwise_map.mp (hprogression.pairwise h0)
    refine ⟨words, ks, hwords, hks, heq, hprogression, ?_, ?_, ?_⟩
    · intro word hword
      have hmem : word.toNat ∈ ks.map Fin.val := heq ▸ List.mem_map_of_mem hword
      obtain ⟨k, -, hk⟩ := List.mem_map.mp hmem
      omega
    · intro hs
      refine hpairwise.imp fun hbefore => ?_
      rw [Before, if_pos hs] at hbefore
      omega
    · intro hs
      refine hpairwise.imp fun hbefore => ?_
      rw [Before, if_neg (by omega)] at hbefore
      omega

/-- The sum of the first position and the step is no word. -/
theorem wordPositions_progression_overrun :
    let s : Slice := ⟨some (-2), some Int64.maxValue, some Int64.maxValue⟩
    3 < 0x8000000000000000 ∧ s.step ≠ some 0 ∧ s.wordPositions 3 = .ok (some [1]) ∧
      s.positions? 3 = some [1] ∧
      Progression (s.startBound 3) (s.stopBound 3) s.stride [1] := by
  intro s
  have hlen : 3 < 0x8000000000000000 := by decide
  have hstep : s.step ≠ some 0 := by decide
  have hpositions : s.positions? 3 = some [1] := by decide +kernel
  obtain ⟨words, ks, hwords, hks, heq, hprogression, -⟩ :=
    (wordPositions_progression s hlen).2.2 hstep
  obtain rfl : [1] = ks := Option.some.inj (hpositions.symm.trans hks)
  have hone : words = [1] := (List.map_inj_right fun _ _ hword => UInt64.toNat_inj.mp hword).mp heq
  subst hone
  exact ⟨hlen, hstep, hwords, hpositions, hprogression⟩

end Slice

end JsonKeys
