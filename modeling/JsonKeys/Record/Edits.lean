import JsonKeys.Failure
import JsonKeys.Place.Edit
import JsonKeys.Record.Options

/-! Reading and changing one record at a list of paths. -/
namespace JsonKeys

namespace Value

/-- The value at a path, to be taken as the document from there on. -/
def rootAt (document : Value) (path : Path) : Except Failure Value :=
  atOrigin ⟨.rootkey, 0, path, [path], document⟩ (document.get path)

/-- Adds the value at one of the paths to the others, under its output name. -/
def getInto (record : Value) (paths : List Path) (options : Options) (item : Nat)
    (found : Members Value) (path : Path) : Except Failure (Members Value) :=
  match record.get path with
  | .ok v => .ok (found.put (path.outputName options.fullNames) v)
  | .error fault =>
    if options.lenient && fault.isMissingMember then .ok found
    else .error (.fault fault (some ⟨.get, item, path, paths, record⟩))

/-- The values at the paths by their output names. A missing member is passed over if the options
say so. -/
def getAll (record : Value) (paths : List Path) (options : Options) (item : Nat) :
    Except Failure (Members Value) :=
  paths.foldlM (record.getInto paths options item) []

def getOrInto (record : Value) (paths : List Path) (full : Bool) (item : Nat)
    (found : Members Value) (pair : Path × Value) : Except Failure (Members Value) := do
  let v ← atOrigin ⟨.getDefaults, item, pair.1, paths, record⟩ (record.getOr pair.1 pair.2)
  return found.put (pair.1.outputName full) v

/-- The values at the paths by their output names, each with a default of its own. -/
def getAllOr (record : Value) (defaults : List (Path × Value)) (full : Bool) (item : Nat) :
    Except Failure (Members Value) :=
  defaults.foldlM (record.getOrInto (defaults.map Prod.fst) full item) []

def setOne (paths : List Path) (options : Options) (item : Nat) (record : Value)
    (pair : Path × Value) : Except Failure Value :=
  atOrigin ⟨.set, item, pair.1, paths, record⟩ (record.set pair.1 pair.2 !options.lenient)

/-- Puts the values at their paths one after another. The origin of a failure holds the record as
the earlier ones left it. -/
def setAll (record : Value) (assignments : List (Path × Value)) (options : Options) (item : Nat) :
    Except Failure Value :=
  assignments.foldlM (setOne (assignments.map Prod.fst) options item) record

def eraseOne (paths : List Path) (options : Options) (item : Nat) (record : Value) (path : Path) :
    Except Failure Value :=
  atOrigin ⟨.del, item, path, paths, record⟩ (record.erase path !options.lenient)

/-- Removes what the paths point to, one after another. The origin of a failure holds the record
as the earlier ones left it. -/
def eraseAll (record : Value) (paths : List Path) (options : Options) (item : Nat) :
    Except Failure Value :=
  paths.foldlM (eraseOne paths options item) record

/-- The record after a run of changes, also one that failed half-way. -/
def afterChanges (record : Value) : Except Failure Value → Value
  | .ok changed => changed
  | .error failure => failure.origin.elim record Origin.document

end Value

end JsonKeys
