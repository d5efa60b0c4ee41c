import JsonKeys.Path.Slice

/-!
What a slice selects: the terms of a progression from its start on that come before its stop. The
bounds are kept within the array, or one before it for a slice that goes backwards.
-/
namespace JsonKeys

/-- The list has the terms `start`, `start + step`, ... that come before `stop`, all of them and
nothing else. -/
structure Progression (start stop step : Int) (ks : List Nat) : Prop where
  lt_length_iff : ∀ k : Nat, k < ks.length ↔ Slice.Before step (start + k * step) stop
  getElem_eq : ∀ (k : Nat) (h : k < ks.length), (ks[k] : Int) = start + k * step

/-- Before a position that comes before the stop lie only such ones. -/
theorem Slice.before_of_before_add {step a b : Int} {k : Nat} (h : Before step (a + k * step) b) :
    Before step a b := by
  unfold Before at h ⊢
  split at h
  · next hs =>
    have hk := Int.mul_nonneg (Int.natCast_nonneg k) (Int.le_of_lt hs)
    rw [if_pos hs]
    omega
  · next hs =>
    have hk := Int.mul_nonneg (Int.natCast_nonneg k) (show 0 ≤ -step by omega)
    rw [Int.mul_neg] at hk
    rw [if_neg hs]
    omega

namespace Progression

variable {start stop step : Int} {ks ls : List Nat}

theorem nil (h : ¬Slice.Before step start stop) : Progression start stop step [] where
  lt_length_iff k := by
    have hk : ¬Slice.Before step (start + k * step) stop :=
      fun hk => h (Slice.before_of_before_add hk)
    simp [hk]
  getElem_eq k hk := absurd hk (Nat.not_lt_zero k)

theorem cons {k : Nat} (hk : (k : Int) = start) (h : Slice.Before step start stop)
    (hks : Progression (start + step) stop step ks) : Progression start stop step (k :: ks) := by
  have hterm : ∀ j : Nat, start + step + j * step = start + (j + 1 : Nat) * step := by
    intro j
    rw [Int.natCast_add, Int.add_mul]
    omega
  constructor
  · intro j
    cases j with
    | zero => simpa using h
    | succ j => rw [List.length_cons, Nat.add_lt_add_iff_right, hks.lt_length_iff, hterm]
  · intro j hj
    cases j with
    | zero => simpa using hk
    | succ j =>
      rw [List.getElem_cons_succ, hks.getElem_eq, hterm]

theorem unique (h : Progression start stop step ks) (hl : Progression start stop step ls) :
    ks = ls := by
  have hlength : ∀ k, k < ks.length ↔ k < ls.length := fun k =>
    (h.lt_length_iff k).trans (hl.lt_length_iff k).symm
  apply List.ext_getElem
  · have hk := hlength ks.length
    have hl := hlength ls.length
    omega
  · intro k hk hk'
    have hterm := h.getElem_eq k hk
    rw [← hl.getElem_eq k hk'] at hterm
    omega

/-- Every term comes after the ones in front of it, so that none is there twice. -/
theorem pairwise (h : Progression start stop step ks) (h0 : step ≠ 0) :
    ks.Pairwise fun i j : Nat => Slice.Before step i j := by
  rw [List.pairwise_iff_getElem]
  intro i j hi hj hij
  rw [h.getElem_eq i hi, h.getElem_eq j hj]
  unfold Slice.Before
  split
  · next hs =>
    have hmul : (i : Int) * step < j * step := Int.mul_lt_mul_of_pos_right (by omega) hs
    omega
  · next hs =>
    have hmul : (j : Int) * step < i * step := Int.mul_lt_mul_of_neg_right (by omega) (by omega)
    omega

end Progression

namespace Slice

theorem stride_eq_zero_iff {s : Slice} : s.stride = 0 ↔ s.step = some 0 := by
  unfold stride
  cases s.step with
  | none => simp
  | some step => simp [← Int64.toInt_inj]

/-- The least that a bound comes to. -/
def lower (s : Slice) : Int := if 0 < s.stride then 0 else -1

/-- The greatest that a bound comes to. -/
def upper (s : Slice) (len : Nat) : Int := if 0 < s.stride then len else len - 1

/-- A bound, counted from the end if negative, and kept from `lower` to `upper`. -/
def confine (s : Slice) (len : Nat) (bound : Int64) : Int :=
  max s.lower (min (s.upper len) (if bound.toInt < 0 then bound.toInt + len else bound.toInt))

/-- Without a start the slice begins at the end that it goes away from. -/
def startBound (s : Slice) (len : Nat) : Int :=
  s.start.elim (if 0 < s.stride then s.lower else s.upper len) (s.confine len)

/-- Without a stop the slice goes up to the other end. -/
def stopBound (s : Slice) (len : Nat) : Int :=
  s.stop.elim (if 0 < s.stride then s.upper len else s.lower) (s.confine len)

theorem confine_up {s : Slice} {len : Nat} (hs : 0 < s.stride) (bound : Int64) :
    s.confine len bound = clamp len 0 len bound.toInt := by
  simp only [confine, lower, upper, clamp, hs, if_true]
  split <;> omega

theorem confine_down {s : Slice} {len : Nat} (hs : ¬0 < s.stride) (bound : Int64) :
    s.confine len bound = clamp len (-1) (len - 1) bound.toInt := by
  simp only [confine, lower, upper, clamp, hs, if_false]
  split <;> omega

theorem first_eq_startBound (s : Slice) (len : Nat) : s.first len = s.startBound len := by
  unfold first startBound
  split
  · next hs =>
    rw [funext (confine_up hs), lower, if_pos hs]
  · next hs =>
    rw [funext (confine_down hs), upper, if_neg hs]

theorem limit_eq_stopBound (s : Slice) (len : Nat) : s.limit len = s.stopBound len := by
  unfold limit stopBound
  split
  · next hs =>
    rw [funext (confine_up hs), upper, if_pos hs]
  · next hs =>
    rw [funext (confine_down hs), lower, if_neg hs]

theorem positions?_eq_none_iff {s : Slice} {len : Nat} :
    s.positions? len = none ↔ s.stride = 0 := by
  unfold positions?
  split <;> simp_all

/-- A slice with a step other than zero selects the terms of its progression. -/
theorem progression_of_positions? {s : Slice} {len : Nat} {ks : List (Fin len)}
    (h : s.positions? len = some ks) :
    s.stride ≠ 0 ∧ Progression (s.startBound len) (s.stopBound len) s.stride (ks.map Fin.val) := by
  unfold positions? at h
  split at h
  · cases h
  · next h0 =>
    have hks := Option.some.inj h
    subst hks
    rw [← first_eq_startBound, ← limit_eq_stopBound]
    refine ⟨h0, ?_, ?_⟩
    · intro k
      rw [List.length_map, List.length_ofFn]
      exact lt_count_iff h0
    · intro k hk
      have hcount : k < s.count len := by simpa using hk
      have hmem := position_mem h0 hcount
      rw [List.getElem_map, List.getElem_ofFn]
      show ((s.position len k).toNat : Int) = s.position len k
      omega

theorem nodup_of_positions? {s : Slice} {len : Nat} {ks : List (Fin len)}
    (h : s.positions? len = some ks) :
    ks.Nodup := by
  obtain ⟨h0, hks⟩ := progression_of_positions? h
  have hpairwise := List.pairwise_map.mp (hks.pairwise h0)
  refine hpairwise.imp fun hbefore heq => ?_
  rw [heq] at hbefore
  unfold Before at hbefore
  split at hbefore <;> omega

theorem span?_eq_none_iff {s : Slice} {len : Nat} : s.span? len = none ↔ s.stride ≠ 1 := by
  unfold span?
  split <;> simp_all

theorem stride_of_span? {s : Slice} {len : Nat} {span : Nat × Nat} (h : s.span? len = some span) :
    s.stride = 1 := by
  by_cases h1 : s.stride = 1
  · exact h1
  · rw [span?_eq_none_iff.mpr h1] at h
    cases h

theorem confine_mem (s : Slice) (len : Nat) (bound : Int64) :
    s.lower ≤ s.confine len bound ∧ s.confine len bound ≤ s.upper len := by
  unfold confine lower upper
  split <;> omega

theorem startBound_mem (s : Slice) (len : Nat) :
    s.lower ≤ s.startBound len ∧ s.startBound len ≤ s.upper len := by
  unfold startBound
  cases s.start with
  | none =>
    simp only [Option.elim_none, lower, upper]
    split <;> omega
  | some bound => exact s.confine_mem len bound

theorem stopBound_mem (s : Slice) (len : Nat) :
    s.lower ≤ s.stopBound len ∧ s.stopBound len ≤ s.upper len := by
  unfold stopBound
  cases s.stop with
  | none =>
    simp only [Option.elim_none, lower, upper]
    split <;> omega
  | some bound => exact s.confine_mem len bound

/-- A slice without gaps selects the positions of a stretch, which is empty where the slice starts
if it stops before that. -/
theorem stretch_of_span? {s : Slice} {len : Nat} {ks : List (Fin len)}
    (hks : s.positions? len = some ks) {a b : Nat} (hspan : s.span? len = some (a, b)) :
    a ≤ b ∧ b ≤ len ∧ (a : Int) = s.startBound len ∧ (b : Int) = max (s.stopBound len) a ∧
      ks.map Fin.val = List.range' a (b - a) := by
  have h1 := stride_of_span? hspan
  have hstart := s.startBound_mem len
  have hstop := s.stopBound_mem len
  have hs : 0 < s.stride := by omega
  rw [lower, upper, if_pos hs, if_pos hs] at hstart hstop
  rw [span?, if_pos h1, first_eq_startBound, limit_eq_stopBound, Option.some.injEq,
    Prod.mk.injEq] at hspan
  obtain ⟨rfl, rfl⟩ := hspan
  refine ⟨Nat.le_max_right _ _, by omega, by omega, by omega, ?_⟩
  apply (progression_of_positions? hks).2.unique
  rw [h1]
  constructor
  · intro k
    rw [List.length_range', Before, if_pos Int.one_pos]
    omega
  · intro k hk
    rw [List.getElem_range']
    omega

theorem length_of_stretch {len a n : Nat} {ks : List (Fin len)}
    (h : ks.map Fin.val = List.range' a n) :
    ks.length = n := by
  rw [← List.length_map Fin.val, h, List.length_range']

theorem getElem_of_stretch {len a n : Nat} {ks : List (Fin len)}
    (h : ks.map Fin.val = List.range' a n) {j : Nat} (hj : j < ks.length) :
    (ks[j] : Nat) = a + j := by
  have hmap : j < (ks.map Fin.val).length := by rwa [List.length_map]
  have hterm := List.getElem_of_eq h hmap
  rwa [List.getElem_map, List.getElem_range', Nat.one_mul] at hterm

end Slice

end JsonKeys
