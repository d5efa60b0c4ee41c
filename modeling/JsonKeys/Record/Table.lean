import JsonKeys.Record.Flat

/-! Tables: a flattened row for every record at some place of a document. -/
namespace JsonKeys

/-- What every row begins with, and the records that the rows are made of. -/
structure Table where
  start : Flat
  records : List Value

namespace Table

/-- The elements of an array, or a value by itself. -/
def recordsOf : Value → List Value
  | .array items => items
  | v => [v]

/-- The table of the records at `root`. Rows begin with the values at the paths of `start` in the
whole document. -/
def ofDocument (document : Value) (root : Path) (start : List Path) : Except Failure Table := do
  let start ← Flat.ofPaths document start 0
  match document.get root with
  | .ok v => return ⟨start, recordsOf v⟩
  | .error fault => .error (.fault fault none)

/-- The flattened record behind the start of every row. -/
def row (table : Table) (record : Value) (item : Nat) : Except Failure Flat :=
  Flat.addAll record (Flat.outlinePaths record false) item table.start

/-- All rows, each drawn for itself. -/
def rows (table : Table) : List (Except Failure Flat) :=
  table.records.zipIdx.map fun r => table.row r.1 (r.2 + 1)

end Table

end JsonKeys
