import JsonKeys.Proofs.Query.Resolution
import JsonKeys.Proofs.Record.Halting

/-!
Where the edits of a query halt. All records before the one named in the failure are edited to the
end, and the origin of the failure tells what was at work, on which path and in which document.
-/
namespace JsonKeys

theorem Records.traverse_eq_error {ε : Type} {change : Nat → Value → Except ε Value}
    {records : Records} {e : ε} (h : records.traverse change = .error e) :
    ∃ before record after, records.toList = before ++ record :: after ∧
      (∀ i other, before[i]? = some other → ∃ v, change (i + 1) other = .ok v) ∧
      change (before.length + 1) record = .error e := by
  cases records with
  | one record =>
    rcases bind_eq_error_iff.mp h with hr | ⟨v, -, hdone⟩
    · exact ⟨[], record, [], rfl, by simp, hr⟩
    · cases hdone
  | many records =>
    rcases bind_eq_error_iff.mp h with hrun | ⟨values, -, hdone⟩
    · simpa [toList] using mapM_zipIdx_eq_error hrun
    · cases hdone

namespace Query

theorem edit_halts {query : Query} {options : Options} {root : Value} {failure : Failure}
    (h : (query.edit root options).result = .error failure)
    (hlisted : ∀ token, failure ≠ .unlisted token) :
    ∃ edits before record after origin fault,
      (query.resolve root options).result = .ok edits ∧
      (Records.ofValue root options.whole).toList = before ++ record :: after ∧
      (∀ i other, before[i]? = some other → ∃ v, edits.apply options (i + 1) other = .ok v) ∧
      failure = .fault fault (some origin) ∧
      edits.Halts options (before.length + 1) record origin fault := by
  rw [result_edit_eq] at h
  rcases bind_eq_error_iff.mp h with hresolve | ⟨edits, hresolve, hrest⟩
  · obtain ⟨token, rfl⟩ := exists_unlisted_of_resolve options hresolve
    exact absurd rfl (hlisted token)
  · rcases bind_eq_error_iff.mp hrest with hrun | ⟨edited, -, hdone⟩
    · obtain ⟨before, record, after, hrecords, hbefore, hrecord⟩ := Records.traverse_eq_error hrun
      obtain ⟨origin, fault, rfl, hhalts⟩ := Edits.halts_of_apply hrecord
      exact ⟨edits, before, record, after, origin, fault, hresolve, hrecords, hbefore, rfl, hhalts⟩
    · cases hdone

/-- If the edits fail for another reason than a number that no key has, so does the query, and with
the truth about the first record that could not be edited: its number, the operation and the paths
it was asked for, the first path to fail, and the document in which that path fails by itself. -/
theorem answer_halts {query : Query} {document root : Value} {options : Options} {failure : Failure}
    (hroot : (query.rooted document options).result = .ok root) (hedits : query.editsRecords = true)
    (hfail : (query.edit root options).result = .error failure)
    (hlisted : ∀ token, failure ≠ .unlisted token) :
    (query.answer document options).result = .error failure ∧
    ∃ edits before record after origin fault,
      (query.resolve root options).result = .ok edits ∧
      (Records.ofValue root options.whole).toList = before ++ record :: after ∧
      (∀ i other, before[i]? = some other → ∃ v, edits.apply options (i + 1) other = .ok v) ∧
      failure = .fault fault (some origin) ∧
      edits.Halts options (before.length + 1) record origin fault := by
  refine ⟨?_, edit_halts hfail hlisted⟩
  rw [result_answer_eq, hroot, ok_bind, answerFrom, if_pos hedits, hfail, error_bind]

/-- Two assignments, of which a record may take only the first. -/
def assigning : Query where
  set := [("a", "true"), ("b.c", "null")]

/-- The second record has no place for a member `c` of `b`. -/
def uneven : Value := .array [.object [("b", .object [])], .object [("b", .null)], .null]

def halfAssigned : Origin where
  operation := .set
  item := 2
  path := [.name "b", .name "c"]
  paths := [[.name "a"], [.name "b", .name "c"]]
  document := .object [("b", .null), ("a", .bool true)]

theorem answer_halts_halfway :
    (assigning.rooted uneven {}).result = .ok uneven ∧ assigning.editsRecords = true ∧
    ∃ failure, failure = .fault (.kindMismatch "c" .null) (some halfAssigned) ∧
      (assigning.edit uneven {}).result = .error failure ∧ (∀ token, failure ≠ .unlisted token) ∧
      (assigning.answer uneven {}).result = .error failure ∧
      ∃ edits before record after origin fault,
        (assigning.resolve uneven {}).result = .ok edits ∧
        (Records.ofValue uneven false).toList = before ++ record :: after ∧
        (∀ i other, before[i]? = some other → ∃ v, edits.apply {} (i + 1) other = .ok v) ∧
        failure = .fault fault (some origin) ∧
        edits.Halts {} (before.length + 1) record origin fault := by
  have hroot : (assigning.rooted uneven {}).result = .ok uneven := rfl
  have hfail : (assigning.edit uneven {}).result =
      .error (.fault (.kindMismatch "c" .null) (some halfAssigned)) := by rfl
  have hlisted : ∀ token, Failure.fault (.kindMismatch "c" .null) (some halfAssigned) ≠
      .unlisted token := nofun
  exact ⟨hroot, rfl, _, rfl, hfail, hlisted, answer_halts hroot rfl hfail hlisted⟩

end Query

end JsonKeys
