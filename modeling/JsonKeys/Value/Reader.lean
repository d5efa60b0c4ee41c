import JsonKeys.Value.Token

/-! Reading values: tokens are taken from left to right, with the open containers on a stack. -/
namespace JsonKeys

/-- A container whose end has not come: the items of an array in reverse, or the members of an
object and the name that the next value belongs to. -/
inductive Frame where
  | array (items : List Value)
  | object (members : Members Value) (name : String)

/-- What may come next. -/
inductive Expected where
  | value
  | firstItem
  | firstName
  | name
  | colon
  | separator
  | nothing (result : Value)

/-- The open containers, the innermost first, and what may come next. -/
structure Parser where
  stack : List Frame
  expected : Expected

namespace Parser

/-- How many containers may stand inside one another. -/
def maxDepth : Nat := 127

def close (stack : List Frame) (v : Value) : Parser :=
  match stack with
  | [] => ⟨[], .nothing v⟩
  | .array items :: stack => ⟨.array (v :: items) :: stack, .separator⟩
  | .object members name :: stack => ⟨.object (members.put name v) name :: stack, .separator⟩

def open? (stack : List Frame) (frame : Frame) (expected : Expected) : Option Parser :=
  if stack.length < maxDepth then some ⟨frame :: stack, expected⟩ else none

def value? (stack : List Frame) : Token → Option Parser
  | .openArray => open? stack (.array []) .firstItem
  | .openObject => open? stack (.object [] "") .firstName
  | .text text => some (close stack (.string text))
  | .scalar v => some (close stack v)
  | _ => none

def name? (stack : List Frame) (name : String) : Option Parser :=
  match stack with
  | .object members _ :: stack => some ⟨.object members name :: stack, .colon⟩
  | _ => none

def step (parser : Parser) (token : Token) : Option Parser :=
  match parser.expected, token, parser.stack with
  | .firstItem, .closeArray, .array _ :: stack => some (close stack (.array []))
  | .firstName, .closeObject, .object members _ :: stack => some (close stack (.object members))
  | .value, token, stack | .firstItem, token, stack => value? stack token
  | .name, .text name, stack | .firstName, .text name, stack => name? stack name
  | .colon, .colon, stack => some ⟨stack, .value⟩
  | .separator, .comma, .array items :: stack => some ⟨.array items :: stack, .value⟩
  | .separator, .comma, .object members name :: stack => some ⟨.object members name :: stack, .name⟩
  | .separator, .closeArray, .array items :: stack => some (close stack (.array items.reverse))
  | .separator, .closeObject, .object members _ :: stack => some (close stack (.object members))
  | _, _, _ => none

end Parser

/-- The value that tokens spell, if they spell one. -/
def Value.ofTokens? (tokens : List Token) : Option Value := do
  let parser ← tokens.foldlM Parser.step ⟨[], .value⟩
  match parser.expected with
  | .nothing v => some v
  | _ => none

/-- Reads a JSON text; none if it is not one. -/
def Value.ofText? (text : String) : Option Value := do ofTokens? (← Token.ofText? text)

end JsonKeys
