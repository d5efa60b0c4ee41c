import JsonKeys.Text.Blank

/-!
Splitting a key expression at its commas. A token that holds commas or outer blanks stands between
quotes, and a quote behind a backslash is a character like any other.
-/
namespace JsonKeys.KeyExpr

/-- A character of an expression, and whether it is a quote behind a backslash. -/
structure Mark where
  char : Char
  escaped : Bool
deriving DecidableEq, Repr

/-- Joins every backslash with the quote after it. A backslash before anything else stays. -/
def marks (quote : Char) : List Char → List Mark
  | [] => []
  | [c] => [⟨c, false⟩]
  | c :: d :: cs =>
    if c = '\\' ∧ d = quote then ⟨quote, true⟩ :: marks quote cs
    else ⟨c, false⟩ :: marks quote (d :: cs)

/-- A token as far as it is read: nothing yet, unquoted text, the inside of an open quote, or a
quoted text and what came after it. Texts are in reverse. -/
inductive Draft where
  | blank
  | bare (text : List Char)
  | quoted (text : List Char)
  | closed (kept tail : List Char)
deriving DecidableEq, Repr

namespace Draft

/-- The token. Blanks at its end go, quoted ones apart. -/
def finish : Draft → String
  | blank => ""
  | bare text | quoted text => String.ofList (text.dropWhile Text.isBlank).reverse
  | closed kept tail => String.ofList (kept.reverse ++ (tail.dropWhile Text.isBlank).reverse)

def push (c : Char) : Draft → Draft
  | blank => bare [c]
  | bare text => bare (c :: text)
  | quoted text => quoted (c :: text)
  | closed kept tail => closed kept (c :: tail)

/-- Takes up a character that neither ends the token nor is escaped. -/
def take (quote c : Char) : Draft → Draft
  | blank => if c = quote then quoted [] else if Text.isBlank c then blank else bare [c]
  | quoted text => if c = quote then closed text [] else quoted (c :: text)
  | draft => draft.push c

def isOpen : Draft → Bool
  | quoted _ => true
  | _ => false

end Draft

/-- The tokens from a draft on. -/
def split (quote : Char) : Draft → List Mark → List String
  | draft, [] => [draft.finish]
  | draft, m :: ms =>
    if m.escaped then split quote (draft.push m.char) ms
    else if m.char = ',' ∧ !draft.isOpen then draft.finish :: split quote .blank ms
    else split quote (draft.take quote m.char) ms

/-- The tokens of an expression; one of nothing but blanks has none. -/
def tokens (text : String) (quote : Char) : List String :=
  if Text.allBlank text.toList then [] else split quote .blank (marks quote text.toList)

end JsonKeys.KeyExpr
