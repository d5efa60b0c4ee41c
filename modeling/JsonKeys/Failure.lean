import JsonKeys.Fault
import JsonKeys.Outline.Walk

/-! Faults together with the operation that met them. -/
namespace JsonKeys

inductive Operation where
  | rootkey
  | get
  | getDefaults
  | set
  | del
  | flatten
deriving DecidableEq, Repr

def Operation.name : Operation → String
  | rootkey => "rootkey"
  | get => "get"
  | getDefaults => "getdefaults"
  | set => "set"
  | del => "del"
  | flatten => "flatten"

/-- Where a fault was met: at which path of which list, and in which document as it was at that
moment. Records are numbered from 1, and 0 stands for a document that is no record. -/
structure Origin where
  operation : Operation
  item : Nat
  path : Path
  paths : List Path
  document : Value

/-- A fault, with its origin once an operation has taken it up, or a number in a key expression that
no listed key has. The latter has to do with no record. -/
inductive Failure where
  | unlisted (token : String)
  | fault (fault : Fault) (origin : Option Origin)

namespace Failure

def name : Failure → String
  | unlisted _ => "KeyNumberOutOfRange"
  | fault f _ => f.name

def message : Failure → String
  | unlisted token => "key number out of range: " ++ Text.quoted token
  | fault f _ => f.message

/-- What a one-line notice says beside the name. -/
def detail : Failure → String
  | unlisted token => token
  | fault f _ => f.detail

def origin : Failure → Option Origin
  | unlisted _ => none
  | fault _ origin => origin

/-- Adds an origin unless there is one: the innermost operation knows the record best. -/
def withOrigin (failure : Failure) (origin : Origin) : Failure :=
  match failure with
  | fault f none => fault f (some origin)
  | _ => failure

/-- The keys of the document that a place was missing from. -/
def presentKeys : Failure → Option (List String)
  | fault f (some origin) => if f.isMissingPlace then some (outline origin.document false) else none
  | _ => none

end Failure

/-- Takes up a fault into an operation. -/
def atOrigin {α : Type} (origin : Origin) (result : Except Fault α) : Except Failure α :=
  result.mapError fun fault => .fault fault (some origin)

end JsonKeys
