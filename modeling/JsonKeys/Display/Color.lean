/-! Colours of a terminal, as escape sequences around a text. -/
namespace JsonKeys

inductive Color where
  | red
  | green
  | yellow
  | blue
  | magenta
  | cyan
  | white
deriving DecidableEq, Repr

def Color.code : Color → List Char
  | red => ['3', '1']
  | green => ['3', '2']
  | yellow => ['3', '3']
  | blue => ['3', '4']
  | magenta => ['3', '5']
  | cyan => ['3', '6']
  | white => ['3', '7']

/-- Whether texts are coloured at all. -/
structure Ink where
  colored : Bool
deriving DecidableEq, Repr

namespace Ink

/-- The sequence that ends all colours. -/
def reset : List Char := ['\x1b', '[', '0', 'm']

/-- Begins a style again behind every reset inside a text. -/
def reopen (style : List Char) : List Char → List Char
  | '\x1b' :: '[' :: '0' :: 'm' :: cs => reset ++ style ++ reopen style cs
  | c :: cs => c :: reopen style cs
  | [] => []

def wrap (ink : Ink) (code : List Char) (cs : List Char) : List Char :=
  if ink.colored then
    let style := '\x1b' :: '[' :: code ++ ['m']
    style ++ reopen style cs ++ reset
  else cs

def paintChars (ink : Ink) (color : Color) (cs : List Char) : List Char :=
  ink.wrap color.code cs

def paint (ink : Ink) (color : Color) (text : String) : String :=
  String.ofList (ink.paintChars color text.toList)

def bold (ink : Ink) (color : Color) (text : String) : String :=
  String.ofList (ink.wrap ('1' :: ';' :: color.code) text.toList)

end Ink

end JsonKeys
