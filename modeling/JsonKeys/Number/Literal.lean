import JsonKeys.Number.Basic

/-!
Reading number literals. A literal keeps the digits that fit a 64-bit significand, and the power of
ten is applied to the significand's nearest float.
-/
namespace JsonKeys

/-- The parts of a literal; a missing exponent reads as 0. -/
structure NumberLiteral where
  negative : Bool
  whole : List Char
  fraction : Option (List Char)
  exponent : Option Int

namespace NumberLiteral

/-- The characters a literal may be made of. -/
def isPart (c : Char) : Bool :=
  c.isDigit || c == '-' || c == '+' || c == '.' || c == 'e' || c == 'E'

/-- Splits off the leading digits, of which there is at least one. -/
def digits? (cs : List Char) : Option (List Char × List Char) :=
  match cs.takeWhile Char.isDigit with
  | [] => none
  | ds => some (ds, cs.dropWhile Char.isDigit)

/-- The whole part does not begin with a zero unless that is all of it. -/
def whole? (cs : List Char) : Option (List Char × List Char) := do
  let (ds, rest) ← digits? cs
  if ds.head? = some '0' ∧ ds ≠ ['0'] then none else some (ds, rest)

def fraction? : List Char → Option (Option (List Char) × List Char)
  | '.' :: cs => do
    let (ds, rest) ← digits? cs
    some (some ds, rest)
  | cs => some (none, cs)

def exponentDigits? (sign : Int) (cs : List Char) : Option (Option Int × List Char) := do
  let (ds, rest) ← digits? cs
  some (some (sign * Nat.ofDigitChars 10 ds 0), rest)

def exponent? : List Char → Option (Option Int × List Char)
  | 'e' :: '-' :: cs | 'E' :: '-' :: cs => exponentDigits? (-1) cs
  | 'e' :: '+' :: cs | 'E' :: '+' :: cs | 'e' :: cs | 'E' :: cs => exponentDigits? 1 cs
  | cs => some (none, cs)

/-- Splits a literal off the front of a text. -/
def split? (cs : List Char) : Option (NumberLiteral × List Char) := do
  let negative := cs.head? = some '-'
  let (whole, cs) ← whole? (if negative then cs.tail else cs)
  let (fraction, cs) ← fraction? cs
  let (exponent, cs) ← exponent? cs
  some (⟨negative, whole, fraction, exponent⟩, cs)

/-- Appends digits to a significand up to the first that no longer fits 64 bits. Gives the
significand and the digits left out. -/
def append (significand : Nat) : List Char → Nat × List Char
  | [] => (significand, [])
  | c :: cs =>
    let next := significand * 10 + (c.toNat - '0'.toNat)
    if next < 0x10000000000000000 then append next cs else (significand, c :: cs)

/-- `x * 10 ^ e`, the power rounded before it is applied; none where the product is too large. A
power too small to be a float is applied in pieces. -/
def scale? (x : Binary64) (e : Int) : Option Binary64 :=
  if 308 < e then if x.isZero then some x else none
  else if 0 ≤ e then do x.mul? (← Binary64.ofRatio? false (Nat.pow 10 e.toNat) 1)
  else if -308 ≤ e then do x.div? (← Binary64.ofRatio? false (Nat.pow 10 (-e).toNat) 1)
  else if x.isZero then some x
  else do scale? (← x.div? (← Binary64.ofRatio? false (Nat.pow 10 308) 1)) (e + 308)
termination_by (-e).toNat

def float? (negative : Bool) (significand : Nat) (e : Int) : Option Number := do
  return .float (← scale? (← Binary64.ofRatio? negative significand 1) e)

/-- A negative integer stays one down to `-2 ^ 63`; zero with a sign is a float. -/
def integer? (negative : Bool) (significand : Nat) : Option Number :=
  let n : Int := if negative then -significand else significand
  if h : (-0x8000000000000000 ≤ n ∧ n < 0x10000000000000000) ∧ ¬(negative ∧ significand = 0)
  then some (.integer n h.1)
  else float? negative significand 0

def value? (literal : NumberLiteral) : Option Number :=
  let (significand, dropped) := append 0 literal.whole
  if literal.fraction = none ∧ literal.exponent = none ∧ dropped = [] then
    integer? literal.negative significand
  else
    let fraction := literal.fraction.getD []
    let (significand, left) := append significand fraction
    let shift : Int := dropped.length - (fraction.length - left.length : Nat)
    float? literal.negative significand (shift + literal.exponent.getD 0)

end NumberLiteral

end JsonKeys
