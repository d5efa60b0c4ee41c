/-! What is asked of a document. Keys are given as key expressions, and values as texts. -/
namespace JsonKeys

/-- What is given back once the edits are made. -/
inductive Form where
  | document
  | keys
  | profiles
  | lengths
  /-- The records flattened at some keys, or at every key if these are absent or `0`. -/
  | flat (keys : Option String)
  /-- A flattened row for every record at the root key, each begun with the same keys. -/
  | table (root : String) (start : Option String)
deriving DecidableEq, Repr

structure Query where
  root : Option String := none
  get : Option String := none
  defaults : List (String × String) := []
  set : List (String × String) := []
  del : Option String := none
  form : Form := .document
deriving DecidableEq, Repr

/-- Whether the query changes records at all. -/
def Query.editsRecords (query : Query) : Bool :=
  query.get.isSome || !query.defaults.isEmpty || !query.set.isEmpty || query.del.isSome

end JsonKeys
