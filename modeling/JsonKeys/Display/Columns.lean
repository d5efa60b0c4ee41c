import JsonKeys.Profile.Basic
import JsonKeys.Profile.Lengths

/-! Profiles and lengths as lines of two columns. -/
namespace JsonKeys

/-- What stands in one column of a line, for whoever colours it. -/
inductive Column where
  | key
  | value
deriving DecidableEq, Repr

namespace Column

/-- Sets a text to the left in `width` places. -/
def padRight (width : Nat) (text : String) : String :=
  text ++ String.ofList (List.replicate (width - text.length) ' ')

/-- The places that the longest of the texts takes. -/
def width (texts : List String) : Nat := (texts.map String.length).foldl max 0

end Column

def Profile.lines (profiles : List Profile) (style : Column → String → String) : List String :=
  let width := Column.width (profiles.map Profile.path)
  profiles.map fun p => style .key (Column.padRight width p.path) ++ " :" ++ style .value p.text

def ArrayLengths.lines (lengths : ArrayLengths) (style : Column → String → String) : List String :=
  match lengths with
  | root length => [style .value (Text.numeral length)]
  | members lengths =>
    let width := Column.width (lengths.map Prod.fst)
    lengths.map fun m =>
      style .key (Column.padRight width m.1) ++ " : " ++ style .value (Text.numeral m.2)

end JsonKeys
