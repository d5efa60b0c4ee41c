import JsonKeys.Number.Literal
import JsonKeys.Value.Basic

/-! The tokens of a JSON text. Blanks between them are passed over. -/
namespace JsonKeys

inductive Token where
  | openArray
  | closeArray
  | openObject
  | closeObject
  | colon
  | comma
  | text (text : String)
  | scalar (value : Value)

namespace Token

def hexDigit? (c : Char) : Option Nat :=
  if '0' ≤ c ∧ c ≤ '9' then some (c.toNat - '0'.toNat)
  else if 'a' ≤ c ∧ c ≤ 'f' then some (c.toNat - 'a'.toNat + 10)
  else if 'A' ≤ c ∧ c ≤ 'F' then some (c.toNat - 'A'.toNat + 10)
  else none

def hex? (a b c d : Char) : Option Nat := do
  return (((← hexDigit? a) * 16 + (← hexDigit? b)) * 16 + (← hexDigit? c)) * 16 + (← hexDigit? d)

def simpleEscape? : Char → Option Char
  | '"' => some '"'
  | '\\' => some '\\'
  | '/' => some '/'
  | 'b' => some '\x08'
  | 'f' => some '\x0c'
  | 'n' => some '\n'
  | 'r' => some '\r'
  | 't' => some '\t'
  | _ => none

/-- The characters that the inside of a string stands for. Of a surrogate pair both halves must be
there, and a control character must be written by an escape. -/
def unescape? : List Char → Option (List Char)
  | [] => some []
  | '\\' :: 'u' :: a :: b :: c :: d :: rest => do
    let n ← hex? a b c d
    if 0xD800 ≤ n ∧ n < 0xDC00 then
      match rest with
      | '\\' :: 'u' :: a :: b :: c :: d :: rest =>
        let low ← hex? a b c d
        if 0xDC00 ≤ low ∧ low < 0xE000 then
          let cs ← unescape? rest
          return Char.ofNat (0x10000 + (n - 0xD800) * 0x400 + (low - 0xDC00)) :: cs
        else none
      | _ => none
    else if 0xDC00 ≤ n ∧ n < 0xE000 then none
    else return Char.ofNat n :: (← unescape? rest)
  | '\\' :: c :: rest => do return (← simpleEscape? c) :: (← unescape? rest)
  | c :: rest => if c.toNat < 0x20 ∨ c = '\\' then none else do return c :: (← unescape? rest)

def ofNumber? (cs : List Char) : Option Token := do
  let (literal, rest) ← NumberLiteral.split? cs
  if rest.isEmpty then return .scalar (.number (← literal.value?)) else none

def ofWord? (cs : List Char) : Option Token :=
  if cs = "true".toList then some (.scalar (.bool true))
  else if cs = "false".toList then some (.scalar (.bool false))
  else if cs = "null".toList then some (.scalar .null)
  else none

end Token

/-- What the characters read so far leave open; the open stretch is in reverse. -/
inductive Lexing where
  | between
  | inText (raw : List Char)
  | inEscape (raw : List Char)
  | inNumber (raw : List Char)
  | inWord (raw : List Char)

/-- The tokens read so far, in reverse, and what is open. -/
structure Lexer where
  tokens : List Token
  pending : Lexing

namespace Lexer

/-- A character that belongs to no open stretch. -/
def start (tokens : List Token) (c : Char) : Option Lexer :=
  match c with
  | ' ' | '\t' | '\n' | '\r' => some ⟨tokens, .between⟩
  | '[' => some ⟨.openArray :: tokens, .between⟩
  | ']' => some ⟨.closeArray :: tokens, .between⟩
  | '\x7b' => some ⟨.openObject :: tokens, .between⟩
  | '\x7d' => some ⟨.closeObject :: tokens, .between⟩
  | ':' => some ⟨.colon :: tokens, .between⟩
  | ',' => some ⟨.comma :: tokens, .between⟩
  | '"' => some ⟨tokens, .inText []⟩
  | c =>
    if c.isDigit ∨ c = '-' then some ⟨tokens, .inNumber [c]⟩
    else if c.isAlpha then some ⟨tokens, .inWord [c]⟩
    else none

def step (lexer : Lexer) (c : Char) : Option Lexer :=
  match lexer.pending with
  | .between => start lexer.tokens c
  | .inText raw =>
    if c = '"' then do
      let cs ← Token.unescape? raw.reverse
      return ⟨.text (String.ofList cs) :: lexer.tokens, .between⟩
    else if c = '\\' then some ⟨lexer.tokens, .inEscape (c :: raw)⟩
    else some ⟨lexer.tokens, .inText (c :: raw)⟩
  | .inEscape raw => some ⟨lexer.tokens, .inText (c :: raw)⟩
  | .inNumber raw =>
    if NumberLiteral.isPart c then some ⟨lexer.tokens, .inNumber (c :: raw)⟩
    else do start ((← Token.ofNumber? raw.reverse) :: lexer.tokens) c
  | .inWord raw =>
    if c.isAlpha then some ⟨lexer.tokens, .inWord (c :: raw)⟩
    else do start ((← Token.ofWord? raw.reverse) :: lexer.tokens) c

end Lexer

/-- The tokens of a text. A space at the end closes an open number or word. -/
def Token.ofText? (text : String) : Option (List Token) := do
  let lexer ← (text.toList ++ [' ']).foldlM Lexer.step ⟨[], .between⟩
  match lexer.pending with
  | .between => some lexer.tokens.reverse
  | _ => none

end JsonKeys
