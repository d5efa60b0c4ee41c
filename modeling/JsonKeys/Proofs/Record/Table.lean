import JsonKeys.Record.Table
import JsonKeys.Proofs.Record.Flat

/-!
The rows of a table. Each is the flattened record by itself, laid over the start that all rows
share, and fails where the record by itself does.
-/
namespace JsonKeys

namespace Flat

/-- Flattening halts at the same path whatever was put before and whatever the number of the record
is. -/
theorem addAll_eq_error {document : Value} {paths : List Path} {item : Nat} {flat : Flat}
    {failure : Failure} (h : addAll document paths item flat = .error failure) :
    ∃ fault origin, failure = .fault fault (some origin) ∧ ∀ (other : Nat) (before : Flat),
      addAll document paths other before =
        .error (.fault fault (some { origin with item := other })) := by
  unfold addAll at h ⊢
  -- the origin of a failure names all the paths, also those that are left out
  generalize paths.filter (fun path => !path.throughWildcard) = kept at h ⊢
  induction kept generalizing flat with
  | nil => cases h
  | cons path kept ih =>
    cases hget : document.get path with
    | error fault =>
      have hadd : ∀ before, add document before path = .error fault := by
        intro before
        rw [add, hget, error_bind]
      rw [List.foldlM_cons, hadd] at h
      obtain rfl := Except.error.inj h
      refine ⟨fault, _, rfl, ?_⟩
      intro other before
      rw [List.foldlM_cons, hadd]
      rfl
    | ok v =>
      have hadd : ∀ before, ∃ result, add document before path = .ok result :=
        fun before => ⟨_, add_eq_ok_iff.mpr ⟨⟨v, hget⟩, rfl⟩⟩
      obtain ⟨result, hresult⟩ := hadd flat
      rw [List.foldlM_cons, hresult] at h
      obtain ⟨fault, origin, hfailure, hall⟩ := ih h
      refine ⟨fault, origin, hfailure, ?_⟩
      intro other before
      obtain ⟨result, hresult⟩ := hadd before
      rw [List.foldlM_cons, hresult]
      exact hall other result

theorem names_nodup_of_ofPaths {document : Value} {paths : List Path} {item : Nat} {flat : Flat}
    (h : ofPaths document paths item = .ok flat) : (Members.names flat).Nodup := by
  rw [(addAll_eq_ok_iff.mp h).2]
  exact Members.nodup_putAll_nil _

/-- What is put over other members is what the paths come to by themselves. -/
theorem addAll_of_ofPaths {document : Value} {paths : List Path} {item other : Nat}
    {flat start : Flat} (h : ofPaths document paths item = .ok flat)
    (hstart : (Members.names start).Nodup) :
    addAll document paths other start = .ok (Members.overlay start flat) := by
  obtain ⟨hlead, hflat⟩ := addAll_eq_ok_iff.mp h
  refine addAll_eq_ok_iff.mpr ⟨hlead, ?_⟩
  rw [← Members.putAll_eq_overlay hstart (names_nodup_of_ofPaths h), hflat,
    Members.putAll_putAll_nil]

end Flat

namespace Table

/-- `RowOf start item record row`: the row is the flattened record over the start, or else the
failure in flattening the record, which is the one with the number `item`. -/
inductive RowOf (start : Flat) (item : Nat) (record : Value) : Except Failure Flat → Prop
  | ok {flat : Flat} (h : Flat.ofDocument record = .ok flat) :
      RowOf start item record (.ok (Members.overlay start flat))
  | error {fault : Fault} {origin : Origin}
      (h : Flat.ofDocument record = .error (.fault fault (some origin))) :
      RowOf start item record (.error (.fault fault (some { origin with item := item })))

theorem ofDocument_eq_ok_iff {document : Value} {root : Path} {start : List Path} {table : Table} :
    ofDocument document root start = .ok table ↔ Flat.ofPaths document start 0 = .ok table.start ∧
      ∃ v, document.get root = .ok v ∧ table.records = recordsOf v := by
  obtain ⟨begun, records⟩ := table
  unfold ofDocument
  cases Flat.ofPaths document start 0 with
  | error failure => simp
  | ok flat =>
    cases document.get root with
    | error fault => simp
    | ok v => simp [pure, Except.pure, eq_comm]

theorem length_rows (table : Table) : table.rows.length = table.records.length := by
  rw [rows, List.length_map, List.length_zipIdx]

theorem rows_getElem? {table : Table} {i : Nat} {record : Value}
    (h : table.records[i]? = some record) :
    table.rows[i]? = some (table.row record (i + 1)) := by
  rw [rows, List.getElem?_map, List.getElem?_zipIdx, h]
  simp

theorem rowOf_row {table : Table} (hstart : (Members.names table.start).Nodup) (record : Value)
    (item : Nat) : RowOf table.start item record (table.row record item) := by
  cases h : Flat.ofDocument record with
  | ok flat =>
    rw [row, Flat.addAll_of_ofPaths h hstart]
    exact .ok h
  | error failure =>
    obtain ⟨fault, origin, rfl, hall⟩ := Flat.addAll_eq_error h
    rw [row, hall]
    exact .error h

end Table

end JsonKeys
