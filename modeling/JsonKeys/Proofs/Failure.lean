import JsonKeys.Failure
import JsonKeys.Proofs.Except

/-! Faults taken up into an operation. -/
namespace JsonKeys

variable {α β : Type}

theorem atOrigin_eq_ok_iff {origin : Origin} {result : Except Fault α} {a : α} :
    atOrigin origin result = .ok a ↔ result = .ok a := by
  cases result <;> simp [atOrigin]

theorem atOrigin_eq_error_iff {origin : Origin} {result : Except Fault α} {failure : Failure} :
    atOrigin origin result = .error failure ↔
      ∃ fault, result = .error fault ∧ failure = .fault fault (some origin) := by
  cases result <;> simp [atOrigin, eq_comm]

/-- Origins have no part in what a run comes to. -/
theorem foldlM_atOrigin_eq_ok_iff {step : β → α → Except Fault β} {origin : β → α → Origin}
    {as : List α} {b c : β} :
    as.foldlM (fun b a => atOrigin (origin b a) (step b a)) b = .ok c ↔
      as.foldlM step b = .ok c := by
  induction as generalizing b with
  | nil => simp [pure, Except.pure]
  | cons a as ih => simp only [List.foldlM_cons, bind_eq_ok_iff, atOrigin_eq_ok_iff, ih]

/-- A run halts at the first element that fails, with the origin of that moment. -/
theorem foldlM_atOrigin_eq_error {step : β → α → Except Fault β} {origin : β → α → Origin}
    {as : List α} {b : β} {failure : Failure}
    (h : as.foldlM (fun b a => atOrigin (origin b a) (step b a)) b = .error failure) :
    ∃ earlier a later c fault, as = earlier ++ a :: later ∧ earlier.foldlM step b = .ok c ∧
      step c a = .error fault ∧ failure = .fault fault (some (origin c a)) := by
  obtain ⟨earlier, a, later, c, rfl, hearlier, ha⟩ := foldlM_eq_error h
  obtain ⟨fault, hfault, rfl⟩ := atOrigin_eq_error_iff.mp ha
  exact ⟨earlier, a, later, c, fault, rfl, foldlM_atOrigin_eq_ok_iff.mp hearlier, hfault, rfl⟩

end JsonKeys
