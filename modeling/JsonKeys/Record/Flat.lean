import JsonKeys.Record.Edits

/-!
Flattening: the values of a document under their whole paths. Objects are left out, since their
members stand for them, and so are paths through a wildcard.
-/
namespace JsonKeys

abbrev Flat := Members Value

namespace Flat

/-- Adds the value at a path to the others, unless it is an object. -/
def add (document : Value) (flat : Flat) (path : Path) : Except Fault Flat := do
  match ← document.get path with
  | .object _ => return flat
  | v => return flat.put (path.outputName true) v

/-- Adds the values at the paths to the others. -/
def addAll (document : Value) (paths : List Path) (item : Nat) (flat : Flat) :
    Except Failure Flat :=
  (paths.filter fun path => !path.throughWildcard).foldlM (fun flat path =>
    atOrigin ⟨.flatten, item, path, paths, document⟩ (add document flat path)) flat

/-- The values at the paths. -/
def ofPaths (document : Value) (paths : List Path) (item : Nat) : Except Failure Flat :=
  addAll document paths item []

/-- The paths that a document's outline names. -/
def outlinePaths (document : Value) (deep : Bool) : List Path :=
  (outline document deep).map Path.ofText

/-- The values under the given names. -/
def ofNames (document : Value) (names : List String) : Except Failure Flat :=
  ofPaths document (names.map Path.ofText) 0

/-- A whole document, along its outline. -/
def ofDocument (document : Value) : Except Failure Flat :=
  ofPaths document (outlinePaths document false) 0

end Flat

end JsonKeys
