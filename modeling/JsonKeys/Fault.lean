import JsonKeys.Text.Quoted
import JsonKeys.Value.Basic

/-! What can go wrong on the way to a place in a value. -/
namespace JsonKeys

inductive Fault where
  | missingMember (name : String)
  | indexOutOfRange (index : Int64) (length : Nat)
  | kindMismatch (segment : String) (found : Kind)
deriving DecidableEq, Repr

namespace Fault

def name : Fault → String
  | missingMember _ => "KeyNotFound"
  | indexOutOfRange _ _ => "IndexOutOfRange"
  | kindMismatch _ _ => "KeyTypeError"

def indexText (index : Int64) (length : Nat) : String :=
  Text.signedNumeral index.toInt ++ " (length " ++ Text.numeral length ++ ")"

def kindText (segment : String) (found : Kind) : String :=
  Text.quoted segment ++ " cannot address " ++ found.name

def message : Fault → String
  | missingMember name => "key not found: " ++ Text.quoted name
  | indexOutOfRange index length => "index out of range: " ++ indexText index length
  | kindMismatch segment found => "key type error: " ++ kindText segment found

/-- What a one-line notice says beside the name. -/
def detail : Fault → String
  | missingMember name => name
  | indexOutOfRange index length => indexText index length
  | kindMismatch segment found => kindText segment found

/-- The place is simply not there, and nothing stands in its way. -/
def isMissingPlace : Fault → Bool
  | missingMember _ | indexOutOfRange _ _ => true
  | kindMismatch _ _ => false

def isMissingMember : Fault → Bool
  | missingMember _ => true
  | _ => false

end Fault

end JsonKeys
