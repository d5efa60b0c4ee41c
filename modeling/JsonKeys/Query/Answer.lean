import JsonKeys.KeyExpr.Basic
import JsonKeys.Log
import JsonKeys.Profile.Basic
import JsonKeys.Profile.Lengths
import JsonKeys.Query.Basic
import JsonKeys.Query.Edits
import JsonKeys.Record.Basic
import JsonKeys.Record.Table

/-!
Answering a query: take a new root, edit every record, and give what is left in the form asked for.
Key numbers in the edits stand for the outline of the document before any of them.
-/
namespace JsonKeys

inductive Answer where
  | document (value : Value)
  | keys (keys : List NumberedKey)
  | profiles (profiles : List Profile)
  | lengths (lengths : Option ArrayLengths)

namespace Query

private def counted (n : Nat) (noun : String) : String := Text.numeral n ++ " " ++ noun

/-- The paths of a key expression. A walk is made only for an expression with key numbers. -/
def keyPaths (text : String) (numbering : Numbering) (options : Options) : Logged (List Path) := do
  match numbering with
  | .ofDocument v =>
    if KeyExpr.usesNumbers text options.quote then
      noteOutline (outline v options.deep).length options.deep
  | .given _ => pure ()
  let paths ← Logged.lift
    ((KeyExpr.paths text numbering options.quote options.deep).mapError fun e => .unlisted e.token)
  Logged.note .debug .keys
    ("key expression " ++ Text.quoted text ++ " resolved to " ++ counted paths.length "paths")
  return paths

/-- The paths of an expression that may be left out. -/
def keyPaths? (text : Option String) (numbering : Numbering) (options : Options) :
    Logged (Option (List Path)) :=
  match text with
  | some text => do return some (← keyPaths text numbering options)
  | none => return none

/-- The paths of the expressions, each with the value that its text stands for. -/
def keyPairs (pairs : List (String × String)) (numbering : Numbering) (options : Options) :
    Logged (List (Path × Value)) := do
  let found ← pairs.mapM fun pair => do
    let paths ← keyPaths pair.1 numbering options
    return paths.map fun path => (path, KeyExpr.argumentValue pair.2)
  return found.flatten

/-- The document at the first of the paths that the expression stands for, if there is one. -/
def enterRoot (document : Value) (text : String) (options : Options) : Logged Value := do
  match ← keyPaths text (.ofDocument document) options with
  | [] => return document
  | path :: _ =>
    Logged.note .debug .query ("re-rooting at " ++ path.text)
    Logged.lift (document.rootAt path)

def resolve (query : Query) (document : Value) (options : Options) : Logged Edits := do
  let keys := outline document options.deep
  noteOutline keys.length options.deep
  let get ← keyPaths? query.get (.given keys) options
  let defaults ← keyPairs query.defaults (.given keys) options
  let set ← keyPairs query.set (.given keys) options
  let del ← keyPaths? query.del (.given keys) options
  return ⟨get, defaults, set, del⟩

def edit (query : Query) (document : Value) (options : Options) : Logged Value := do
  let edits ← query.resolve document options
  let records := Records.ofValue document options.whole
  Logged.note .debug .query ("editing " ++ counted records.toList.length "records")
  let edited ← Logged.lift (records.traverse (edits.apply options))
  return edited.toValue

/-- One record flattened at the chosen paths, or at all of its own. -/
def flatRecord (chosen : Option (List Path)) (options : Options) (item : Nat) (record : Value) :
    Logged Value :=
  match chosen with
  | some paths => do return .object (← Logged.lift (Flat.ofPaths record paths item))
  | none => do
    let paths := Flat.outlinePaths record options.deep
    noteOutline paths.length options.deep
    return .object (← Logged.lift (Flat.ofPaths record paths item))

def flat (document : Value) (keys : Option String) (options : Options) : Logged Value := do
  let chosen ← keyPaths? (if keys = some "0" then none else keys) (.ofDocument document) options
  return (← (Records.ofValue document false).traverse (flatRecord chosen options)).toValue

def tableRows (document : Value) (root : String) (start : Option String) (options : Options) :
    Logged Value := do
  let root := (← keyPaths root (.ofDocument document) options).headD []
  let start := (← keyPaths? start (.ofDocument document) options).getD []
  let table ← Logged.lift (Table.ofDocument document root start)
  Logged.note .debug .table
    ("generating " ++ counted table.records.length "rows with " ++
      counted table.start.length "prepended keys")
  let rows ← table.records.zipIdx.mapM fun r => do
    noteOutline (outline r.1 false).length false
    Logged.lift (table.row r.1 (r.2 + 1))
  return .array (rows.map .object)

/-- A document in one of the forms. -/
def present (document : Value) (form : Form) (options : Options) : Logged Answer := do
  match form with
  | .document => return .document document
  | .keys =>
    let keys := numberedOutline document options.deep
    noteOutline keys.length options.deep
    return .keys keys
  | .profiles =>
    let profiles := Profile.ofDocument document
    noteOutline profiles.length true
    return .profiles profiles
  | .lengths => return .lengths (ArrayLengths.ofDocument? document)
  | .flat keys => return .document (← flat document keys options)
  | .table root start => return .document (← tableRows document root start options)

def answer (query : Query) (document : Value) (options : Options) : Logged Answer := do
  let document ← match query.root with
    | some text => enterRoot document text options
    | none => pure document
  let document ← if query.editsRecords then query.edit document options else pure document
  present document query.form options

end Query

end JsonKeys
