import JsonKeys.Fault
import JsonKeys.Path.Basic

/-! What one segment addresses in a value. -/
namespace JsonKeys

/-- How a segment reads against an array. -/
inductive Subscript where
  | index (position : Int64)
  | slice (slice : Slice)
deriving DecidableEq, Repr

namespace Subscript

/-- A name made of digits, dashes and colons reads as a slice if it has a colon, and else as an
index. -/
def ofName? (name : String) : Option Subscript :=
  let cs := name.toList
  if cs ≠ [] ∧ cs.all fun c => c.isDigit || c == '-' || c == ':' then
    if cs.contains ':' then (Slice.ofText? cs).map slice else (Text.readInt64? cs).map index
  else none

end Subscript

def Segment.subscript? : Segment → Option Subscript
  | .name text => Subscript.ofName? text
  | .index i => some (.index i)
  | .slice s => some (.slice s)

/-- The position in an array of `len` items that an index stands for; a negative one counts from the
end. -/
def indexPosition (i : Int64) (len : Nat) : Except Fault (Fin len) :=
  let k := if i.toInt < 0 then i.toInt + len else i.toInt
  if h : 0 ≤ k ∧ k < len then .ok ⟨k.toNat, by omega⟩ else .error (.indexOutOfRange i len)

/-- The positions a slice selects; a slice with a stride of zero addresses nothing. -/
def Slice.positions (s : Slice) (len : Nat) : Except Fault (List (Fin len)) :=
  match s.positions? len with
  | some ks => .ok ks
  | none => .error (.kindMismatch s.text .array)

/-- A place in a value: a member, which may be absent, an element that is there, or a slice. -/
inductive Place where
  | member (members : Members Value) (name : String)
  | element (items : List Value) (position : Fin items.length)
  | slice (items : List Value) (slice : Slice)

/-- An object takes every name as it stands, digits included. An array takes an index or a slice, by
name or as such. Nothing else has parts. -/
def Segment.place (segment : Segment) : Value → Except Fault Place
  | .object members =>
    match segment with
    | .name text => .ok (.member members text)
    | _ => .error (.kindMismatch segment.text .object)
  | .array items =>
    match segment.subscript? with
    | some (.index i) => do return .element items (← indexPosition i items.length)
    | some (.slice s) => .ok (.slice items s)
    | none => .error (.kindMismatch segment.text .array)
  | value => .error (.kindMismatch segment.text value.kind)

end JsonKeys
