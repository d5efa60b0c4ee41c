/-!
The finite numbers of binary64, by their place on the number line, and rounding a ratio to the
nearest of them.
-/
namespace JsonKeys

/-- A sign, and how many finite magnitudes lie below. The rank is the bit pattern without its sign:
`2 ^ 52` magnitudes to each of 2047 exponents, so ranks are ordered as the magnitudes are. -/
structure Binary64 where
  negative : Bool
  rank : Nat
  rank_lt : rank < 2047 * (1 <<< 52)
deriving DecidableEq

namespace Binary64

/-- The magnitude as `mantissa * 2 ^ exponent`. The lowest two exponents of the pattern share one
spacing, so that the numbers next to zero lose digits and not range. -/
def mantissa (x : Binary64) : Nat :=
  if x.rank < 1 <<< 52 then x.rank else 1 <<< 52 + x.rank % (1 <<< 52)

def exponent (x : Binary64) : Int := (max (x.rank >>> 52) 1 : Nat) - 1075

/-- The magnitude as a quotient of naturals. -/
def numerator (x : Binary64) : Nat := x.mantissa <<< x.exponent.toNat

def denominator (x : Binary64) : Nat := 1 <<< (-x.exponent).toNat

def isZero (x : Binary64) : Bool := x.rank == 0

/-- The quotient to the nearest integer; halfway, the even one. -/
def roundDiv (num den : Nat) : Nat :=
  let q := num / den
  let r := num % den
  if 2 * r < den then q else if den < 2 * r then q + 1 else q + q % 2

/-- The quotient `num / den / 2 ^ e` to the nearest integer. -/
def scaledDiv (num den : Nat) (e : Int) : Nat :=
  roundDiv (num <<< (-e).toNat) (den <<< e.toNat)

/-- The exponent of the spacing around `num / den`: the quotient has 53 bits at it, or fewer at the
lowest exponent there is. -/
def spacing (num den : Nat) : Int :=
  if num = 0 then -1074 else
  let e : Int := (num.log2 : Int) - den.log2 - 52
  let fits := den <<< (e + 52).toNat ≤ num <<< (-(e + 52)).toNat
  max (if fits then e else e - 1) (-1074)

/-- The rank of the magnitude nearest to `num / den`. A mantissa that rounds up to `2 ^ 53` carries
into the exponent by itself. -/
def nearestRank (num den : Nat) : Nat :=
  let e := spacing num den
  (e + 1074).toNat <<< 52 + scaledDiv num den e

/-- The nearest number to a ratio, ties to even; none past the largest finite one. -/
def ofRatio? (negative : Bool) (num den : Nat) : Option Binary64 :=
  if h : nearestRank num den < 2047 * (1 <<< 52) then some ⟨negative, nearestRank num den, h⟩
  else none

def mul? (x y : Binary64) : Option Binary64 :=
  ofRatio? (x.negative != y.negative) (x.numerator * y.numerator) (x.denominator * y.denominator)

/-- The quotient by a number other than zero. -/
def div? (x y : Binary64) : Option Binary64 :=
  ofRatio? (x.negative != y.negative) (x.numerator * y.denominator) (x.denominator * y.numerator)

/-- The place on the number line; both zeros are at 0. -/
def place (x : Binary64) : Int := if x.negative then -(x.rank : Int) else x.rank

end Binary64

end JsonKeys
