import JsonKeys.Path.Slice

/-! Paths into a document, and their text: names joined by dots, with `\.` for a dot in a name. -/
namespace JsonKeys

/-- One step of a path. What a name such as `0` or `1:3` stands for depends on the value that the
step is taken from. -/
inductive Segment where
  | name (text : String)
  | index (position : Int64)
  | slice (slice : Slice)
deriving DecidableEq, Repr

abbrev Path := List Segment

/-- Stands for every element of an array. -/
def wildcard : String := "#"

namespace Segment

def text : Segment → String
  | name text => text
  | index i => Text.signedNumeral i.toInt
  | slice s => s.text

end Segment

namespace Path

/-- Puts a backslash before every dot. -/
def escapeChars : List Char → List Char
  | [] => []
  | c :: cs => if c = '.' then '\\' :: '.' :: escapeChars cs else c :: escapeChars cs

def escapeDots (name : String) : String := String.ofList (escapeChars name.toList)

/-- Puts a character before the first of the pieces. -/
def consHead (c : Char) : List (List Char) → List (List Char)
  | [] => [[c]]
  | piece :: rest => (c :: piece) :: rest

/-- The pieces between the dots of a text, of which there is at least one. A dot behind a backslash
is part of its piece and the backslash is not. -/
def pieces : List Char → List (List Char)
  | [] => [[]]
  | '\\' :: '.' :: cs => consHead '.' (pieces cs)
  | c :: cs => if c = '.' then [] :: pieces cs else consHead c (pieces cs)

/-- The path a text names; dots in front of it are passed over. -/
def ofText (text : String) : Path :=
  (pieces (text.toList.dropWhile (· = '.'))).map fun piece => .name (String.ofList piece)

/-- A segment as it stands in the text of a path. -/
def segmentText : Segment → String
  | .name text => escapeDots text
  | segment => segment.text

def text (path : Path) : String := ".".intercalate (path.map segmentText)

/-- The name under which a selected value is put out: the last segment, or all of them. -/
def outputName (path : Path) (full : Bool) : String :=
  if full then ".".intercalate (path.map Segment.text) else (path.getLast?.map Segment.text).getD ""

/-- Whether a path stands for many places at once. -/
def throughWildcard (path : Path) : Bool := path.contains (.name wildcard)

end Path

end JsonKeys
