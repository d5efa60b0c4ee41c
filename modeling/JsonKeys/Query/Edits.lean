import JsonKeys.Record.Edits

/-! The edits of one record: reads come first, then assignments, then deletions. -/
namespace JsonKeys

/-- The edits of a query with their keys resolved. -/
structure Edits where
  get : Option (List Path)
  defaults : List (Path × Value)
  set : List (Path × Value)
  del : Option (List Path)

namespace Edits

/-- Puts members into an object; in place of anything else they make an object of their own. -/
def putMembers (record : Value) (found : Members Value) : Value :=
  match record with
  | .object members => .object (Members.putAll members found)
  | _ => .object found

/-- The selection that takes the record's place, or the record with the defaults put into it. -/
def applyGet (edits : Edits) (options : Options) (item : Nat) (record : Value) :
    Except Failure Value :=
  match edits.get with
  | some paths => do
    let found ← record.getAll paths options item
    if edits.defaults.isEmpty then return .object found
    else return .object (found.putAll (← record.getAllOr edits.defaults options.fullNames item))
  | none =>
    if edits.defaults.isEmpty then .ok record
    else do return putMembers record (← record.getAllOr edits.defaults options.fullNames item)

def applySet (edits : Edits) (options : Options) (item : Nat) (record : Value) :
    Except Failure Value :=
  record.setAll edits.set options item

def applyDel (edits : Edits) (options : Options) (item : Nat) (record : Value) :
    Except Failure Value :=
  record.eraseAll (edits.del.getD []) options item

def apply (edits : Edits) (options : Options) (item : Nat) (record : Value) :
    Except Failure Value := do
  let record ← edits.applyGet options item record
  let record ← edits.applySet options item record
  edits.applyDel options item record

end Edits

end JsonKeys
