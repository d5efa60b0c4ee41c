import JsonKeys.Value.Basic

/-! The kinds of value found under one path, each with its least and greatest size. -/
namespace JsonKeys

structure Extent (α : Type) where
  least : α
  greatest : α
deriving DecidableEq

namespace Extent

variable {α : Type}

def single (a : α) : Extent α := ⟨a, a⟩

def widen (compare : α → α → Ordering) (e : Extent α) (a : α) : Extent α :=
  ⟨if compare a e.least = .lt then a else e.least,
   if compare a e.greatest = .gt then a else e.greatest⟩

end Extent

/-- One kind of value, and how many members, items or characters the values had, or which numbers
they were. The two truth values are kinds of their own. -/
inductive Summary where
  | null
  | bool (value : Bool)
  | object (sizes : Extent Nat)
  | array (sizes : Extent Nat)
  | text (sizes : Extent Nat)
  | number (values : Extent Number)
deriving DecidableEq

namespace Summary

def ofValue : Value → Summary
  | .null => null
  | .bool b => bool b
  | .object members => object (.single members.length)
  | .array items => array (.single items.length)
  | .string s => text (.single s.length)
  | .number n => number (.single n)

/-- The summary with one more value in it, if the value is of its kind. -/
def extend? : Summary → Value → Option Summary
  | null, .null => some null
  | bool b, .bool c => if b = c then some (bool b) else none
  | object e, .object members => some (object (e.widen compare members.length))
  | array e, .array items => some (array (e.widen compare items.length))
  | text e, .string s => some (text (e.widen compare s.length))
  | number e, .number n => some (number (e.widen Number.compare n))
  | _, _ => none

/-- Takes a value into the summary of its kind, or adds a summary at the end. -/
def extendAll : List Summary → Value → List Summary
  | [], v => [ofValue v]
  | s :: ss, v =>
    match s.extend? v with
    | some s => s :: ss
    | none => s :: extendAll ss v

def ofValues (values : List Value) : List Summary := values.foldl extendAll []

def extentText {α : Type} (kind measure : String) (e : Extent α) (same : Bool)
    (write : α → String) :
    String :=
  if same then kind ++ "(" ++ measure ++ "=" ++ write e.least ++ ")"
  else kind ++ "(min" ++ measure ++ "=" ++ write e.least ++ ", max" ++ measure ++ "=" ++
    write e.greatest ++ ")"

def line : Summary → String
  | null => "null"
  | bool true => "true"
  | bool false => "false"
  | object e => extentText "object" "keys" e (e.least == e.greatest) Text.numeral
  | array e => extentText "array" "count" e (e.least == e.greatest) Text.numeral
  | text e => extentText "text" "len" e (e.least == e.greatest) Text.numeral
  | number e =>
    extentText "number" "val" e (Number.compare e.least e.greatest == .eq) Number.summaryText

end Summary

end JsonKeys
