import JsonKeys.Text.Blank
import JsonKeys.Value.Reader

/-! Values given as text: JSON where it is JSON, and a few other spellings. -/
namespace JsonKeys.KeyExpr

/-- The inside of a text between single quotes. -/
def singleQuoted? (cs : List Char) : Option (List Char) :=
  if 2 ≤ cs.length ∧ cs.head? = some '\'' ∧ cs.getLast? = some '\'' then some cs.tail.dropLast
  else none

/-- The value a text stands for; one with no other reading stands for itself. -/
def argumentValue (text : String) : Value :=
  let trimmed := Text.trim text.toList
  match Value.ofText? (String.ofList trimmed) with
  | some v => v
  | none =>
    if trimmed = "None".toList then .null
    else if trimmed = "True".toList then .bool true
    else if trimmed = "False".toList then .bool false
    else match singleQuoted? trimmed with
      | some inside => .string (String.ofList inside)
      | none => .string text

end JsonKeys.KeyExpr
