import JsonKeys.Number.Basic
import JsonKeys.Value.Members

/-! JSON values, with the members of an object in order, and their kinds. -/
namespace JsonKeys

inductive Value where
  | null
  | bool (value : Bool)
  | number (value : Number)
  | string (text : String)
  | array (items : List Value)
  | object (members : List (String × Value))
deriving Inhabited

inductive Kind where
  | object
  | array
  | string
  | number
  | boolean
  | null
deriving DecidableEq, Repr

def Kind.name : Kind → String
  | object => "object"
  | array => "array"
  | string => "string"
  | number => "number"
  | boolean => "boolean"
  | null => "null"

namespace Value

def kind : Value → Kind
  | null => .null
  | bool _ => .boolean
  | number _ => .number
  | string _ => .string
  | array _ => .array
  | object _ => .object

mutual

/-- How many values a value holds, itself among them. -/
def nodeCount : Value → Nat
  | array items => itemCount items + 1
  | object members => memberCount members + 1
  | _ => 1

def itemCount : List Value → Nat
  | [] => 0
  | v :: vs => v.nodeCount + itemCount vs

def memberCount : Members Value → Nat
  | [] => 0
  | (_, v) :: ms => v.nodeCount + memberCount ms

end

end Value

end JsonKeys
