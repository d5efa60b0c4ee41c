import JsonKeys.Record.Basic
import JsonKeys.Proofs.Record.Halting

/-!
Edits that pass over missing keys. Wherever strict edits succeed they come to the same, for all that
they change is to turn a fault into going on as before. No missing member is left for them to fail
with, and no missing element but in a get.
-/
namespace JsonKeys

variable {ε α β : Type}

/-- The second run comes to whatever value the first one comes to. -/
def KeptBy (first second : Except ε α) : Prop := ∀ a, first = .ok a → second = .ok a

namespace KeptBy

theorem refl (run : Except ε α) : KeptBy run run := fun _ h => h

theorem error (e : ε) (second : Except ε α) : KeptBy (.error e) second := nofun

theorem bind {first second : Except ε α} {next others : α → Except ε β} (h : KeptBy first second)
    (hnext : ∀ a, KeptBy (next a) (others a)) : KeptBy (first >>= next) (second >>= others) := by
  intro b hb
  obtain ⟨a, ha, hb⟩ := bind_eq_ok_iff.mp hb
  rw [h a ha, ok_bind]
  exact hnext a b hb

theorem foldlM {step other : β → α → Except ε β} (h : ∀ b a, KeptBy (step b a) (other b a))
    (as : List α) (b : β) : KeptBy (as.foldlM step b) (as.foldlM other b) := by
  induction as generalizing b with
  | nil => exact .refl _
  | cons a as ih =>
    simp only [List.foldlM_cons]
    exact (h b a).bind ih

theorem mapM {change other : α → Except ε β} (h : ∀ a, KeptBy (change a) (other a)) (as : List α) :
    KeptBy (as.mapM change) (as.mapM other) := by
  induction as with
  | nil => exact .refl _
  | cons a as ih =>
    simp only [List.mapM_cons]
    exact (h a).bind fun b => ih.bind fun bs => .refl _

theorem atOrigin {first second : Except Fault α} (h : KeptBy first second) (origin : Origin) :
    KeptBy (JsonKeys.atOrigin origin first) (JsonKeys.atOrigin origin second) := by
  intro a ha
  rw [atOrigin_eq_ok_iff] at ha ⊢
  exact h a ha

theorem traverse {change other : Nat → Value → Except ε Value}
    (h : ∀ item record, KeptBy (change item record) (other item record)) (records : Records) :
    KeptBy (records.traverse change) (records.traverse other) := by
  cases records with
  | many records => exact (mapM (fun r => h (r.2 + 1) r.1) records.zipIdx).bind fun _ => .refl _
  | one record => exact (h 1 record).bind fun _ => .refl _

end KeptBy

theorem keptBy_tolerate (v : Value) (result : Except Fault Value) :
    KeptBy (tolerate true v result) (tolerate false v result) := by
  cases result with
  | ok w => exact .refl _
  | error fault => exact .error fault _

/-- A fault that is not tolerated even in a lenient edit is more than that a place is missing. -/
theorem not_isMissingPlace_of_tolerate {v : Value} {result : Except Fault Value} {fault : Fault}
    (h : tolerate false v result = .error fault) : fault.isMissingPlace = false := by
  cases result with
  | ok w => cases h
  | error e =>
    cases hmissing : e.isMissingPlace with
    | true => simp [tolerate, hmissing] at h
    | false =>
      simp only [tolerate, hmissing, Bool.and_false, Bool.false_eq_true, if_false,
        Except.error.injEq] at h
      exact h ▸ hmissing

namespace Fault

theorem not_isMissingMember {fault : Fault} (h : fault.isMissingPlace = false) :
    fault.isMissingMember = false := by
  cases fault with
  | missingMember name => cases h
  | _ => rfl

end Fault

namespace Value

variable (record : Value) (options : Options) (item : Nat)

theorem keptBy_getInto (paths : List Path) (found : Members Value) (path : Path) :
    KeptBy (record.getInto paths { options with lenient := false } item found path)
      (record.getInto paths { options with lenient := true } item found path) := by
  unfold getInto
  cases record.get path with
  | ok v => exact .refl _
  | error fault => exact .error _ _

theorem keptBy_getAll (paths : List Path) :
    KeptBy (record.getAll paths { options with lenient := false } item)
      (record.getAll paths { options with lenient := true } item) :=
  .foldlM (record.keptBy_getInto options item paths) paths []

theorem keptBy_setAll (assignments : List (Path × Value)) :
    KeptBy (record.setAll assignments { options with lenient := false } item)
      (record.setAll assignments { options with lenient := true } item) :=
  .foldlM (fun v _ => (keptBy_tolerate v _).atOrigin _) assignments record

theorem keptBy_eraseAll (paths : List Path) :
    KeptBy (record.eraseAll paths { options with lenient := false } item)
      (record.eraseAll paths { options with lenient := true } item) :=
  .foldlM (fun v _ => (keptBy_tolerate v _).atOrigin _) paths record

end Value

namespace Edits

variable (edits : Edits) (options : Options) (item : Nat) (record : Value)

theorem keptBy_applyGet :
    KeptBy (edits.applyGet { options with lenient := false } item record)
      (edits.applyGet { options with lenient := true } item record) := by
  unfold applyGet
  cases edits.get with
  | none => exact .refl _
  | some paths => exact (record.keptBy_getAll options item paths).bind fun found => .refl _

/-- A record that strict edits can be made in is left as they leave it by lenient ones. -/
theorem keptBy_apply :
    KeptBy (edits.apply { options with lenient := false } item record)
      (edits.apply { options with lenient := true } item record) := by
  refine (edits.keptBy_applyGet options item record).bind fun selected => ?_
  refine (selected.keptBy_setAll options item edits.set).bind fun assigned => ?_
  exact assigned.keptBy_eraseAll options item (edits.del.getD [])

/-- Lenient edits halt neither at a missing member nor, once the values are got, at a missing
element. -/
theorem Halts.of_lenient {edits : Edits} {options : Options} {item : Nat} {record : Value}
    {origin : Origin} {fault : Fault} (h : edits.Halts options item record origin fault)
    (hlenient : options.lenient = true) :
    fault.isMissingMember = false ∧
      (fault.isMissingPlace = true →
        origin.operation = .get ∨ origin.operation = .getDefaults) := by
  cases h with
  | get hget hpaths hearlier hfault hstands =>
    refine ⟨?_, fun _ => .inl rfl⟩
    simpa [hlenient] using hstands
  | getDefaults hget hdefaults hearlier hfault =>
    have hmissing := (Value.getOr_eq_error_iff.mp hfault).2
    exact ⟨by simpa using hmissing, fun _ => .inr rfl⟩
  | set hget hset hearlier hfault =>
    rw [hlenient] at hfault
    have hplace := not_isMissingPlace_of_tolerate hfault
    exact ⟨Fault.not_isMissingMember hplace, by simp [hplace]⟩
  | del hget hset hdel hpaths hearlier hfault =>
    rw [hlenient] at hfault
    have hplace := not_isMissingPlace_of_tolerate hfault
    exact ⟨Fault.not_isMissingMember hplace, by simp [hplace]⟩

end Edits

end JsonKeys
