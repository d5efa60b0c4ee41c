import JsonKeys.Number.Shortest

/-! Numbers as a document holds them: integers of up to 64 bits, and finite floats. -/
namespace JsonKeys

inductive Number where
  | integer (value : Int) (range : -0x8000000000000000 ≤ value ∧ value < 0x10000000000000000)
  | float (value : Binary64)
deriving DecidableEq

/-- How a float is written: positionally while its first digit's power of ten is from `lowest` to
`highest`, and beyond that with an exponent, whose plus sign may be left out. -/
structure FloatLayout where
  lowest : Int
  highest : Int
  plus : Bool

namespace FloatLayout

/-- Floats in documents: `0.00001`, `1000000000000000.0`, `1e+16`, `1.5e-7`. -/
def document : FloatLayout := ⟨-5, 15, true⟩

/-- Floats in summaries: as in documents, but `1e16`. -/
def summary : FloatLayout := ⟨-5, 15, false⟩

def positional (digits : List Char) (exponent : Int) : List Char :=
  if exponent < 0 then
    '0' :: '.' :: List.replicate (-exponent - 1).toNat '0' ++ digits
  else
    let whole := exponent.toNat + 1
    let fraction := digits.drop whole
    digits.take whole ++ List.replicate (whole - digits.length) '0' ++ '.' ::
      (if fraction = [] then ['0'] else fraction)

def scientific (layout : FloatLayout) (digits : List Char) (exponent : Int) : List Char :=
  let coefficient := match digits with
    | [] | [_] => digits
    | first :: rest => first :: '.' :: rest
  let sign := if 0 ≤ exponent ∧ layout.plus then ['+'] else []
  coefficient ++ 'e' :: sign ++ Text.intText exponent

def write (layout : FloatLayout) (x : Binary64) : List Char :=
  let d := x.shortest
  let magnitude :=
    if layout.lowest ≤ d.exponent ∧ d.exponent ≤ layout.highest
    then positional d.digits d.exponent
    else layout.scientific d.digits d.exponent
  if x.negative then '-' :: magnitude else magnitude

end FloatLayout

namespace Number

def write (layout : FloatLayout) : Number → List Char
  | integer n _ => Text.intText n
  | float x => layout.write x

/-- The text of a number in a document. -/
def text (n : Number) : String := String.ofList (n.write .document)

/-- The text of a number in a summary. -/
def summaryText (n : Number) : String := String.ofList (n.write .summary)

/-- Where the nearest float lies on the number line. -/
def place : Number → Int
  | integer n _ => n.sign * Binary64.nearestRank n.natAbs 1
  | float x => x.place

/-- Integers compare by value; beside a float an integer stands for the nearest float. -/
def compare : Number → Number → Ordering
  | integer m _, integer n _ => Ord.compare m n
  | m, n => Ord.compare m.place n.place

end Number

end JsonKeys
