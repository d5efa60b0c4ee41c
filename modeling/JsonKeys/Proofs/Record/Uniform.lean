import JsonKeys.Query.Edits
import JsonKeys.Proofs.Except
import Mathlib.Data.List.Forall2

/-!
The number of a record among the others. The edits of a record end alike whatever its number is, but
that the origin of a failure holds the number.
-/
namespace JsonKeys

variable {α β : Type}

/-- For all numbers of a record the run ends with one value, or else with one failure that has an
origin, in which the number is all that differs. -/
inductive Uniform (run : Nat → Except Failure α) : Prop
  | ok (a : α) (h : ∀ item, run item = .ok a)
  | error (fault : Fault) (origin : Origin)
      (h : ∀ item, run item = .error (.fault fault (some { origin with item := item })))

namespace Uniform

theorem const (a : α) : Uniform fun _ => .ok a := .ok a fun _ => rfl

theorem atOrigin (origin : Origin) (result : Except Fault α) :
    Uniform fun item => JsonKeys.atOrigin { origin with item := item } result := by
  cases result with
  | ok a => exact .const a
  | error fault => exact .error fault origin fun _ => rfl

theorem bind {run : Nat → Except Failure α} {next : Nat → α → Except Failure β} (h : Uniform run)
    (hnext : ∀ a, Uniform fun item => next item a) :
    Uniform fun item => run item >>= next item := by
  cases h with
  | ok a h =>
    have hrun : (fun item => run item >>= next item) = fun item => next item a := by
      funext item
      rw [h, ok_bind]
    exact hrun ▸ hnext a
  | error fault origin h => exact .error fault origin fun item => by rw [h, error_bind]

theorem foldlM {step : Nat → β → α → Except Failure β}
    (hstep : ∀ b a, Uniform fun item => step item b a) (as : List α) (b : β) :
    Uniform fun item => as.foldlM (step item) b := by
  induction as generalizing b with
  | nil => exact .const b
  | cons a as ih =>
    simp only [List.foldlM_cons]
    exact (hstep b a).bind ih

end Uniform

namespace Value

theorem uniform_getInto (record : Value) (paths : List Path) (options : Options)
    (found : Members Value) (path : Path) :
    Uniform fun item => record.getInto paths options item found path := by
  unfold getInto
  cases record.get path with
  | ok v => exact .const _
  | error fault =>
    by_cases h : options.lenient && fault.isMissingMember
    · simp only [if_pos h]
      exact .const found
    · simp only [if_neg h]
      exact .error fault ⟨.get, 0, path, paths, record⟩ fun _ => rfl

theorem uniform_getAll (record : Value) (paths : List Path) (options : Options) :
    Uniform fun item => record.getAll paths options item :=
  .foldlM (record.uniform_getInto paths options) paths []

theorem uniform_getAllOr (record : Value) (defaults : List (Path × Value)) (full : Bool) :
    Uniform fun item => record.getAllOr defaults full item := by
  refine .foldlM (fun found pair => ?_) defaults []
  exact (Uniform.atOrigin ⟨.getDefaults, 0, pair.1, defaults.map Prod.fst, record⟩ _).bind
    fun v => .const _

theorem uniform_setAll (record : Value) (assignments : List (Path × Value)) (options : Options) :
    Uniform fun item => record.setAll assignments options item := by
  refine .foldlM (fun v pair => ?_) assignments record
  exact .atOrigin ⟨.set, 0, pair.1, assignments.map Prod.fst, v⟩ _

theorem uniform_eraseAll (record : Value) (paths : List Path) (options : Options) :
    Uniform fun item => record.eraseAll paths options item := by
  refine .foldlM (fun v path => ?_) paths record
  exact .atOrigin ⟨.del, 0, path, paths, v⟩ _

end Value

namespace Edits

variable (edits : Edits) (options : Options) (record : Value)

theorem uniform_applyGet : Uniform fun item => edits.applyGet options item record := by
  unfold applyGet
  cases edits.get with
  | none =>
    cases edits.defaults.isEmpty with
    | true => exact .const record
    | false => exact (record.uniform_getAllOr _ _).bind fun found => .const _
  | some paths =>
    refine (record.uniform_getAll paths options).bind fun found => ?_
    cases edits.defaults.isEmpty with
    | true => exact .const _
    | false => exact (record.uniform_getAllOr _ _).bind fun others => .const _

theorem uniform_apply : Uniform fun item => edits.apply options item record := by
  refine (edits.uniform_applyGet options record).bind fun selected => ?_
  refine (selected.uniform_setAll edits.set options).bind fun assigned => ?_
  exact assigned.uniform_eraseAll (edits.del.getD []) options

end Edits

/-- A run over records in order ends with what it makes of each, or else with the failure of the
first record that has one. -/
theorem mapM_zipIdx_of_uniform {change : Nat → α → Except Failure β}
    (h : ∀ a, Uniform fun item => change item a) (as : List α) (start : Nat) :
    (∃ bs, List.Forall₂ (fun a b => change 1 a = .ok b) as bs ∧
      (as.zipIdx start).mapM (fun a => change (a.2 + 1) a.1) = .ok bs) ∨
    ∃ before a after fault, ∃ origin : Origin, as = before ++ a :: after ∧
      (∀ other ∈ before, ∃ b, change 1 other = .ok b) ∧
      change 1 a = .error (.fault fault (some { origin with item := 1 })) ∧
      (as.zipIdx start).mapM (fun a => change (a.2 + 1) a.1) =
        .error (.fault fault (some { origin with item := start + before.length + 1 })) := by
  induction as generalizing start with
  | nil => exact .inl ⟨[], .nil, rfl⟩
  | cons a as ih =>
    simp only [List.zipIdx_cons, List.mapM_cons]
    cases h a with
    | error fault origin hrun =>
      refine .inr ⟨[], a, as, fault, origin, rfl, by simp, hrun 1, ?_⟩
      rw [hrun, error_bind]
      rfl
    | ok b hrun =>
      -- the rest is numbered from the next record on
      rw [hrun, ok_bind]
      rcases ih (start + 1) with ⟨bs, hall, hbs⟩ |
        ⟨before, r, after, fault, origin, rfl, hok, hr, hfirst⟩
      · refine .inl ⟨b :: bs, .cons (hrun 1) hall, ?_⟩
        rw [hbs]
        rfl
      · refine .inr ⟨a :: before, r, after, fault, origin, rfl, ?_, hr, ?_⟩
        · rw [List.forall_mem_cons]
          exact ⟨⟨b, hrun 1⟩, hok⟩
        · have hitem : start + 1 + before.length + 1 = start + (before.length + 1) + 1 := by omega
          rw [hfirst, error_bind, List.length_cons, hitem]

end JsonKeys
