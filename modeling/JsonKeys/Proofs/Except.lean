import Mathlib.Data.List.Forall2

/-! Results in a row: the first error ends the row. -/
namespace JsonKeys

variable {ε α β : Type}

@[simp] theorem ok_bind (a : α) (f : α → Except ε β) : (Except.ok a >>= f) = f a := rfl

@[simp] theorem error_bind (e : ε) (f : α → Except ε β) : (Except.error e >>= f) = .error e := rfl

theorem bind_eq_ok_iff {x : Except ε α} {f : α → Except ε β} {b : β} :
    x >>= f = .ok b ↔ ∃ a, x = .ok a ∧ f a = .ok b := by
  cases x <;> simp

theorem bind_eq_error_iff {x : Except ε α} {f : α → Except ε β} {e : ε} :
    x >>= f = .error e ↔ x = .error e ∨ ∃ a, x = .ok a ∧ f a = .error e := by
  cases x <;> simp

theorem exists_ok_iff {x : Except ε α} : (∃ a, x = .ok a) ↔ ∀ e, x ≠ .error e := by
  cases x <;> simp

theorem mapM_eq_ok_iff {f : α → Except ε β} {as : List α} {bs : List β} :
    as.mapM f = .ok bs ↔ List.Forall₂ (fun a b => f a = .ok b) as bs := by
  induction as generalizing bs with
  | nil => simp [pure, Except.pure, eq_comm]
  | cons a as ih =>
    simp only [List.mapM_cons, bind_eq_ok_iff, ih, List.forall₂_cons_left_iff]
    constructor
    · rintro ⟨b, hb, others, hothers, hbs⟩
      cases hbs
      exact ⟨b, others, hb, hothers, rfl⟩
    · rintro ⟨b, others, hb, hothers, rfl⟩
      exact ⟨b, hb, others, hothers, rfl⟩

theorem mapM_eq_ok {f : α → Except ε β} {g : α → β} {as : List α} (h : ∀ a ∈ as, f a = .ok (g a)) :
    as.mapM f = .ok (as.map g) := by
  rw [mapM_eq_ok_iff, List.forall₂_map_right_iff, List.forall₂_same]
  exact h

/-- A run halts at the first element that fails. -/
theorem mapM_eq_error_iff {f : α → Except ε β} {as : List α} {e : ε} :
    as.mapM f = .error e ↔
      ∃ before a after, as = before ++ a :: after ∧ (∀ b ∈ before, ∃ c, f b = .ok c) ∧
        f a = .error e := by
  induction as with
  | nil => simp [pure, Except.pure]
  | cons a as ih =>
    simp only [List.mapM_cons, bind_eq_error_iff, ih]
    constructor
    · rintro (ha | ⟨b, hb, ⟨before, c, after, rfl, hbefore, hc⟩ | ⟨bs, -, hdone⟩⟩)
      · exact ⟨[], a, as, rfl, by simp, ha⟩
      · exact ⟨a :: before, c, after, rfl, List.forall_mem_cons.mpr ⟨⟨b, hb⟩, hbefore⟩, hc⟩
      · cases hdone
    · rintro ⟨before, c, after, hsplit, hbefore, hc⟩
      cases before with
      | nil =>
        obtain ⟨rfl, rfl⟩ := List.cons.inj hsplit
        exact .inl hc
      | cons d before =>
        obtain ⟨rfl, rfl⟩ := List.cons.inj hsplit
        obtain ⟨⟨b, hb⟩, hrest⟩ := List.forall_mem_cons.mp hbefore
        exact .inr ⟨b, hb, .inl ⟨before, c, after, rfl, hrest, hc⟩⟩

theorem mapM_congr {f g : α → Except ε β} {as : List α} (h : ∀ a ∈ as, f a = g a) :
    as.mapM f = as.mapM g := by
  induction as with
  | nil => rfl
  | cons a as ih =>
    obtain ⟨ha, has⟩ := List.forall_mem_cons.mp h
    rw [List.mapM_cons, List.mapM_cons, ha, ih has]

/-- What every element comes to may as well be changed at the end of the run. -/
theorem mapM_ok_map {γ : Type} (f : α → Except ε β) (g : β → γ) (as : List α) :
    (as.mapM fun a => f a >>= fun b => .ok (g b)) = as.mapM f >>= fun bs => .ok (bs.map g) := by
  induction as with
  | nil => rfl
  | cons a as ih =>
    simp only [List.mapM_cons, ih, bind_assoc]
    rfl

/-- A run that fails comes to the element that fails through elements that do not. -/
theorem foldlM_eq_error {f : β → α → Except ε β} {as : List α} {b : β} {e : ε}
    (h : as.foldlM f b = .error e) :
    ∃ before a after c, as = before ++ a :: after ∧ before.foldlM f b = .ok c ∧
      f c a = .error e := by
  induction as generalizing b with
  | nil => cases h
  | cons a as ih =>
    rw [List.foldlM_cons] at h
    rcases bind_eq_error_iff.mp h with ha | ⟨c, hc, hrest⟩
    · exact ⟨[], a, as, b, rfl, rfl, ha⟩
    · obtain ⟨before, a', after, d, rfl, hbefore, ha'⟩ := ih hrest
      refine ⟨a :: before, a', after, d, rfl, ?_, ha'⟩
      rw [List.foldlM_cons, hc, ok_bind, hbefore]

section Independent

variable {step : β → α → Except ε β} {next : β → α → β} {passes : α → Prop}
  (hstep : ∀ b a c, step b a = .ok c ↔ passes a ∧ c = next b a)

include hstep

/-- A run whose steps succeed or fail whatever came before succeeds if each of them does. -/
theorem foldlM_eq_ok_iff {as : List α} {b c : β} :
    as.foldlM step b = .ok c ↔ (∀ a ∈ as, passes a) ∧ c = as.foldl next b := by
  induction as generalizing b with
  | nil => simp [pure, Except.pure, eq_comm]
  | cons a as ih =>
    simp only [List.foldlM_cons, bind_eq_ok_iff, hstep, ih, List.forall_mem_cons, List.foldl_cons]
    constructor
    · rintro ⟨d, ⟨ha, rfl⟩, has, hc⟩
      exact ⟨⟨ha, has⟩, hc⟩
    · rintro ⟨⟨ha, has⟩, hc⟩
      exact ⟨_, ⟨ha, rfl⟩, has, hc⟩

/-- It fails at the first step that does. -/
theorem foldlM_eq_error_iff {fails : α → ε → Prop}
    (hfail : ∀ b a e, step b a = .error e ↔ fails a e) {as : List α} {b : β} {e : ε} :
    as.foldlM step b = .error e ↔
      ∃ before a after, as = before ++ a :: after ∧ (∀ other ∈ before, passes other) ∧
        fails a e := by
  constructor
  · intro h
    obtain ⟨before, a, after, c, hsplit, hbefore, ha⟩ := foldlM_eq_error h
    exact ⟨before, a, after, hsplit, ((foldlM_eq_ok_iff hstep).mp hbefore).1, (hfail c a e).mp ha⟩
  · rintro ⟨before, a, after, rfl, hbefore, ha⟩
    have hrun : before.foldlM step b = .ok (before.foldl next b) :=
      (foldlM_eq_ok_iff hstep).mpr ⟨hbefore, rfl⟩
    rw [List.foldlM_append, hrun, ok_bind, List.foldlM_cons, (hfail _ a e).mpr ha, error_bind]

end Independent

/-- A numbered run over elements halts at the first one that fails. -/
theorem mapM_zipIdx_eq_error {change : Nat → α → Except ε β} {as : List α} {start : Nat} {e : ε}
    (h : (as.zipIdx start).mapM (fun a => change (a.2 + 1) a.1) = .error e) :
    ∃ before a after, as = before ++ a :: after ∧
      (∀ i other, before[i]? = some other → ∃ b, change (start + i + 1) other = .ok b) ∧
      change (start + before.length + 1) a = .error e := by
  induction as generalizing start with
  | nil => cases h
  | cons a as ih =>
    rw [List.zipIdx_cons, List.mapM_cons] at h
    rcases bind_eq_error_iff.mp h with ha | ⟨b, hb, hrest⟩
    · exact ⟨[], a, as, rfl, by simp, ha⟩
    · rcases bind_eq_error_iff.mp hrest with hrest | ⟨bs, -, hdone⟩
      · obtain ⟨before, r, after, rfl, hok, hr⟩ := ih hrest
        -- the rest is numbered from the next element on
        have hnumber : ∀ i, start + 1 + i + 1 = start + (i + 1) + 1 := by omega
        refine ⟨a :: before, r, after, rfl, ?_, ?_⟩
        · intro i other hother
          cases i with
          | zero =>
            obtain rfl := Option.some.inj hother
            exact ⟨b, hb⟩
          | succ i => exact hnumber i ▸ hok i other hother
        · rw [List.length_cons, ← hnumber, hr]
      · cases hdone

@[simp] theorem mapError_ok {δ : Type} (a : α) (g : ε → δ) :
    (Except.ok a : Except ε α).mapError g = .ok a := rfl

@[simp] theorem mapError_error {δ : Type} (e : ε) (g : ε → δ) :
    (Except.error e : Except ε α).mapError g = .error (g e) := rfl

theorem mapError_bind {δ : Type} (x : Except ε α) (f : α → Except ε β) (g : ε → δ) :
    (x >>= f).mapError g = x.mapError g >>= fun a => (f a).mapError g := by
  cases x <;> rfl

theorem mapM_mapError {δ : Type} (f : α → Except ε β) (g : ε → δ) (as : List α) :
    as.mapM (fun a => (f a).mapError g) = (as.mapM f).mapError g := by
  induction as with
  | nil => rfl
  | cons a as ih =>
    simp only [List.mapM_cons, mapError_bind, ih]
    rfl

theorem mapError_eq_error_iff {δ : Type} {x : Except ε α} {g : ε → δ} {d : δ} :
    x.mapError g = .error d ↔ ∃ e, x = .error e ∧ g e = d := by
  cases x <;> simp

end JsonKeys
