import JsonKeys.Value.Basic

/-! Writing values as JSON: a value is laid out as lexemes, and its text is theirs in a row. -/
namespace JsonKeys

/-- What a stretch of JSON text stands for. A mark is punctuation or the space around it. -/
inductive LexemeKind where
  | name
  | string
  | number
  | word
  | mark
deriving DecidableEq, Repr

structure Lexeme where
  kind : LexemeKind
  text : List Char
deriving DecidableEq, Repr

namespace Lexeme

/-- How one character stands inside a string. -/
def escaped (c : Char) : List Char :=
  if c = '"' ∨ c = '\\' then ['\\', c]
  else if c = '\x08' then ['\\', 'b']
  else if c = '\x0c' then ['\\', 'f']
  else if c = '\n' then ['\\', 'n']
  else if c = '\r' then ['\\', 'r']
  else if c = '\t' then ['\\', 't']
  else if c.toNat < 0x20 then
    ['\\', 'u', '0', '0', Nat.digitChar (c.toNat / 16), Nat.digitChar (c.toNat % 16)]
  else [c]

def literal (text : String) : List Char := '"' :: text.toList.flatMap escaped ++ ['"']

def mark (cs : List Char) : Lexeme := ⟨.mark, cs⟩

end Lexeme

namespace Value

/-- The break before a line at a depth; without an indent everything stays on one line. -/
def lineBreak (indent depth : Nat) : List Char :=
  if indent = 0 then [] else '\n' :: List.replicate (indent * depth) ' '

def colon (indent : Nat) : List Char := if indent = 0 then [':'] else [':', ' ']

mutual

def lexemes (indent depth : Nat) : Value → List Lexeme
  | null => [⟨.word, "null".toList⟩]
  | bool true => [⟨.word, "true".toList⟩]
  | bool false => [⟨.word, "false".toList⟩]
  | number n => [⟨.number, n.write .document⟩]
  | string text => [⟨.string, Lexeme.literal text⟩]
  | array items =>
    .mark ['['] :: itemLexemes indent (depth + 1) [] items ++
      [.mark ((if items.isEmpty then [] else lineBreak indent depth) ++ [']'])]
  | object members =>
    .mark ['\x7b'] :: memberLexemes indent (depth + 1) [] members ++
      [.mark ((if members.isEmpty then [] else lineBreak indent depth) ++ ['\x7d'])]

/-- The items of an array, each after a separator and a line break. -/
def itemLexemes (indent depth : Nat) (separator : List Char) : List Value → List Lexeme
  | [] => []
  | v :: vs =>
    .mark (separator ++ lineBreak indent depth) ::
      v.lexemes indent depth ++ itemLexemes indent depth [','] vs

def memberLexemes (indent depth : Nat) (separator : List Char) : Members Value → List Lexeme
  | [] => []
  | (name, v) :: ms =>
    .mark (separator ++ lineBreak indent depth) :: ⟨.name, Lexeme.literal name⟩ ::
      .mark (colon indent) :: v.lexemes indent depth ++ memberLexemes indent depth [','] ms

end

/-- A value's text, on one line when the indent is 0. -/
def write (indent : Nat) (v : Value) : String :=
  String.ofList ((v.lexemes indent 0).flatMap Lexeme.text)

/-- The text of a value on one line. -/
def text (v : Value) : String := v.write 0

end Value

end JsonKeys
