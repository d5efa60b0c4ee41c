import JsonKeys.Proofs.Query.Deep
import JsonKeys.Proofs.Record.Table

/-!
Tables as they are asked for. Every row is a flattened record over what all rows begin with; and a
table with nothing in front shows what the flattened records of its root show.
-/
namespace JsonKeys

open KeyExpr (listedPaths listedPaths?)

namespace Query

variable (options : Options)

theorem result_tableRows (document : Value) (text : String) (start : Option String) :
    (tableRows document text start options).result = (do
      let root ←
        (listedPaths (outline document options.deep) options.quote text).mapError .ofUnlisted
      let start ← (listedPaths? (outline document options.deep) options.quote start).mapError
        .ofUnlisted
      let table ← Table.ofDocument document (root.headD []) (start.getD [])
      let rows ← table.rows.mapM id
      return .array (rows.map .object)) := by
  have hrows : ∀ table : Table, table.records.zipIdx.mapM (fun r => table.row r.1 (r.2 + 1)) =
      table.rows.mapM id := by
    intro table
    rw [Table.rows, List.mapM_map]
    rfl
  simp only [tableRows, Logged.result_bind, Logged.result_mapM, Logged.result_lift,
    Logged.result_note, Logged.result_pure, result_noteOutline, ok_bind, result_keyPaths,
    result_keyPaths?, Numbering.keys, hrows]
  rfl

/-- Records that are flattened at all their keys are shown one by one. -/
theorem result_flat_array (items : List Value) :
    (flat (.array items) none options).result = (do
      let rows ← items.zipIdx.mapM fun r =>
        Flat.ofPaths r.1 (Flat.outlinePaths r.1 options.deep) (r.2 + 1)
      return .array (rows.map .object)) := by
  have hrecord : ∀ item record, (flatRecord none options item record).result =
      Flat.ofPaths record (Flat.outlinePaths record options.deep) item >>= fun flat =>
        .ok (.object flat) := by
    intro item record
    simp only [flatRecord, Logged.result_bind, Logged.result_lift, result_noteOutline, ok_bind]
    rfl
  have hkeys : (keyPaths? none (.ofDocument (.array items)) options).result = .ok none := rfl
  simp only [flat, reduceCtorEq, if_false, Logged.result_bind, Logged.result_pure,
    Logged.result_mapM, hkeys, ok_bind, Records.ofValue, Records.traverse, hrecord, mapM_ok_map,
    bind_assoc]
  rfl

/-- With nothing in front the rows of a table are its records, each flattened by itself. -/
theorem rows_mapM_of_no_start {table : Table} (h : table.start = []) :
    table.rows.mapM id = table.records.zipIdx.mapM fun r =>
      Flat.ofPaths r.1 (Flat.outlinePaths r.1 false) (r.2 + 1) := by
  rw [Table.rows, List.mapM_map]
  simp only [Table.row, h]
  rfl

theorem result_enterRoot {document v : Value} {text : String} {paths : List Path}
    (hpaths : listedPaths (outline document options.deep) options.quote text = .ok paths)
    (hv : document.get (paths.headD []) = .ok v) :
    (enterRoot document text options).result = .ok v := by
  simp only [enterRoot, Logged.result_bind, result_keyPaths, Numbering.keys, hpaths, mapError_ok,
    ok_bind]
  cases paths with
  | nil =>
    obtain rfl := Except.ok.inj hv
    rfl
  | cons path others =>
    have hroot : document.rootAt path = .ok v := atOrigin_eq_ok_iff.mpr hv
    simp only [Logged.result_bind, Logged.result_lift, Logged.result_note, ok_bind, hroot]

/-- A table without a start and the flattened records of a new root are the same, where the root is
an array and outlines are not deep. -/
theorem result_answer_table {document : Value} {text : String} {paths : List Path}
    {items : List Value} (hdeep : options.deep = false)
    (hpaths : KeyExpr.paths text (.ofDocument document) options.quote options.deep = .ok paths)
    (hitems : document.get (paths.headD []) = .ok (.array items)) :
    (answer { form := .table text none } document options).result =
      (answer { root := some text, form := .flat none } document options).result := by
  rw [KeyExpr.paths_eq_listedPaths] at hpaths
  have htable : Table.ofDocument document (paths.headD []) [] = .ok ⟨[], items⟩ :=
    Table.ofDocument_eq_ok_iff.mpr ⟨rfl, .array items, hitems, rfl⟩
  have hrows : (tableRows document text none options).result =
      (flat (.array items) none options).result := by
    have hlisted : listedPaths (outline document options.deep) options.quote text = .ok paths :=
      hpaths
    have hnone : listedPaths? (outline document options.deep) options.quote none = .ok none := rfl
    rw [result_tableRows, result_flat_array, hlisted, hnone, hdeep, mapError_ok, mapError_ok,
      ok_bind, ok_bind, Option.getD_none, htable, ok_bind, rows_mapM_of_no_start rfl]
  have hroot := result_enterRoot options hpaths hitems
  rw [result_answer_eq, result_answer_eq, rooted, rooted, hroot, Logged.result_pure, ok_bind,
    ok_bind]
  show (present document (.table text none) options).result =
    (present (.array items) (.flat none) options).result
  simp only [present, Logged.result_bind, hrows]

/-- A table has a row for every element of the array at its root, or one for a root that is no
array. A row is the flattened record over the start, which is put together from the paths in their
order; or it fails as the flattening of the record does. A table without a start is the same as the
flattened records. -/
theorem table_rows_flatten (document : Value) :
    (∀ root start table, Table.ofDocument document root start = .ok table →
      (∃ v, document.get root = .ok v ∧ table.records = Table.recordsOf v) ∧
      (∀ path ∈ start, path.throughWildcard = false → ∃ v, document.get path = .ok v) ∧
      table.start = Members.putAll [] ((start.filter fun path => !path.throughWildcard).filterMap
        (Flat.pathMember? document)) ∧
      table.rows.length = table.records.length ∧
      ∀ i record, table.records[i]? = some record → ∃ row, table.rows[i]? = some row ∧
        Table.RowOf table.start (i + 1) record row) ∧
    ∀ (options : Options) text paths items, options.deep = false →
      KeyExpr.paths text (.ofDocument document) options.quote options.deep = .ok paths →
      document.get (paths.headD []) = .ok (.array items) →
      (answer { form := .table text none } document options).result =
        (answer { root := some text, form := .flat none } document options).result := by
  constructor
  · intro root start table h
    obtain ⟨hstart, hroot⟩ := Table.ofDocument_eq_ok_iff.mp h
    obtain ⟨hlead, hmembers⟩ := Flat.addAll_eq_ok_iff.mp hstart
    refine ⟨hroot, hlead, hmembers, table.length_rows, ?_⟩
    intro i record hrecord
    exact ⟨_, Table.rows_getElem? hrecord,
      Table.rowOf_row (Flat.names_nodup_of_ofPaths hstart) record (i + 1)⟩
  · intro options text paths items hdeep hpaths hitems
    exact result_answer_table options hdeep hpaths hitems

/-- The first record has a member of the name that all rows begin with, and the second has a key
that is read back as another name. -/
def shops : Value :=
  .object [("p", .bool true),
    ("list", .array [.object [("p", .null), ("a", .object [("b", .bool false)])],
      .object [("a\\", .object [("b", .null)])]])]

theorem table_rows_flatten_shops :
    ∃ table, Table.ofDocument shops [.name "list"] [[.name "p"]] = .ok table ∧
      table.rows[0]? = some (.ok [("p", .null), ("a.b", .bool false)]) ∧
      (∃ fault origin,
        table.rows[1]? = some (.error (.fault fault (some origin))) ∧ origin.item = 2) ∧
      KeyExpr.paths "list" (.ofDocument shops) '"' false = .ok [[.name "list"]] ∧
      (answer { form := .table "list" none } shops {}).result =
        (answer { root := some "list", form := .flat none } shops {}).result := by
  obtain ⟨hrows, hsame⟩ := table_rows_flatten shops
  have htable : ∃ table, Table.ofDocument shops [.name "list"] [[.name "p"]] = .ok table ∧
      table.start = [("p", .bool true)] ∧ table.records =
        [.object [("p", .null), ("a", .object [("b", .bool false)])],
          .object [("a\\", .object [("b", .null)])]] := ⟨_, rfl, rfl, rfl⟩
  obtain ⟨table, htable, hstart, hrecords⟩ := htable
  obtain ⟨-, -, -, -, hrow⟩ := hrows _ _ _ htable
  rw [hstart, hrecords] at hrow
  have hfirst : Flat.ofDocument (.object [("p", .null), ("a", .object [("b", .bool false)])]) =
      .ok [("a.b", .bool false), ("p", .null)] := by cbv
  have hsecond : Flat.ofDocument (.object [("a\\", .object [("b", .null)])]) =
      .error (.fault (.missingMember "a.b") (some ⟨.flatten, 0, [.name "a.b"],
        [[.name "a\\"], [.name "a.b"]], .object [("a\\", .object [("b", .null)])]⟩)) := by cbv
  have hpaths : KeyExpr.paths "list" (.ofDocument shops) '"' false = .ok [[.name "list"]] := by rfl
  refine ⟨table, htable, ?_, ?_, hpaths, hsame {} "list" _ _ rfl hpaths rfl⟩
  · obtain ⟨row, hget, hof⟩ := hrow 0 _ rfl
    cases hof with
    | ok h =>
      obtain rfl := Except.ok.inj (hfirst.symm.trans h)
      exact hget
    | error h => cases hfirst.symm.trans h
  · obtain ⟨row, hget, hof⟩ := hrow 1 _ rfl
    cases hof with
    | ok h => cases hsecond.symm.trans h
    | error h => exact ⟨_, _, hget, rfl⟩

end Query

end JsonKeys
