import JsonKeys.Display.Color
import JsonKeys.Number.Literal
import JsonKeys.Text.Blank
import JsonKeys.Value.Writer

/-!
Colouring JSON text. The text is cut into lexemes by their first characters and need not be JSON;
whatever it is, the lexemes in a row are the text.
-/
namespace JsonKeys

namespace Lexeme

/-- Splits behind the quote that ends a string. A backslash takes the next character with it. -/
def splitString : List Char → List Char × List Char
  | [] => ([], [])
  | ['\\'] => (['\\'], [])
  | '\\' :: c :: cs => ('\\' :: c :: (splitString cs).1, (splitString cs).2)
  | '"' :: cs => (['"'], cs)
  | c :: cs => (c :: (splitString cs).1, (splitString cs).2)

theorem splitString_append (cs : List Char) :
    (splitString cs).1 ++ (splitString cs).2 = cs := by
  fun_induction splitString cs <;> simp_all

theorem length_splitString_le (cs : List Char) : (splitString cs).2.length ≤ cs.length := by
  have h := congrArg List.length (splitString_append cs)
  rw [List.length_append] at h
  omega

/-- A string is a member's name if a colon follows. -/
def namesMember (after : List Char) : Bool := (Text.trimStart after).head? == some ':'

private theorem length_dropWhile_lt (p : Char → Bool) (c : Char) (cs : List Char) :
    (cs.dropWhile p).length < (c :: cs).length :=
  Nat.lt_succ_of_le (List.dropWhile_suffix p).length_le

/-- Cuts a text into lexemes. -/
def scan : List Char → List Lexeme
  | [] => []
  | c :: cs =>
    if c = '"' then
      ⟨if namesMember (splitString cs).2 then .name else .string, c :: (splitString cs).1⟩ ::
        scan (splitString cs).2
    else if c = '-' ∨ c.isDigit then
      ⟨.number, c :: cs.takeWhile NumberLiteral.isPart⟩ :: scan (cs.dropWhile NumberLiteral.isPart)
    else if c = 't' ∨ c = 'f' ∨ c = 'n' then
      ⟨.word, c :: cs.takeWhile Char.isAlpha⟩ :: scan (cs.dropWhile Char.isAlpha)
    else .mark [c] :: scan cs
termination_by cs => cs.length
decreasing_by
  · exact Nat.lt_succ_of_le (length_splitString_le cs)
  · exact length_dropWhile_lt _ _ _
  · exact length_dropWhile_lt _ _ _
  · simp

def color? : LexemeKind → Option Color
  | .name => some .blue
  | .string => some .green
  | .number => some .cyan
  | .word => some .magenta
  | .mark => none

def paint (ink : Ink) (lexeme : Lexeme) : List Char :=
  match color? lexeme.kind with
  | some color => ink.paintChars color lexeme.text
  | none => lexeme.text

end Lexeme

/-- Member names, strings, numbers and words each in a colour of their own. -/
def Display.jsonText (text : String) (ink : Ink) : String :=
  if ink.colored then String.ofList ((Lexeme.scan text.toList).flatMap (Lexeme.paint ink))
  else text

end JsonKeys
