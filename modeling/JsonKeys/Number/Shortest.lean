import JsonKeys.Number.Binary64
import JsonKeys.Text.Decimal

/-! The fewest decimal digits that round back to a binary64 number, and of those the nearest. -/
namespace JsonKeys

/-- The number `coefficient * 10 ^ power`. -/
structure Decimal where
  coefficient : Nat
  power : Int

namespace Decimal

/-- The digits of the coefficient without its closing zeros. -/
def digits (d : Decimal) : List Char :=
  match ((Text.natText d.coefficient).reverse.dropWhile (· == '0')).reverse with
  | [] => ['0']
  | cs => cs

/-- The power of ten of the first digit. -/
def exponent (d : Decimal) : Int := d.power + (Text.natText d.coefficient).length - 1

end Decimal

namespace Binary64

/-- The power of ten that begins a ratio's decimal expansion. -/
def decimalExponent (num den : Nat) : Int :=
  if den ≤ num then (Text.natText (num / den)).length - 1
  else -(Text.natText ((den - 1) / num)).length

/-- The point of the grid of step `10 ^ power` that stands for the number: of the two neighbours of
the number the one that reads back as it, and if both do the nearer, halfway the even one. -/
def gridPoint? (x : Binary64) (power : Int) : Option Decimal :=
  -- Everything is measured in quarters of the spacing: the number is `4 * mantissa` of them.
  let quarter := x.exponent - 2
  let step := Nat.pow 10 power.toNat <<< (-quarter).toNat
  let unit := Nat.pow 10 (-power).toNat <<< quarter.toNat
  let here := 4 * x.mantissa * unit
  -- Below a power of two the numbers lie twice as close.
  let closer := x.mantissa = 1 <<< 52 ∧ x.exponent ≠ -1074
  let low := here - (if closer then unit else 2 * unit)
  let high := here + 2 * unit
  let readsBack (c : Nat) : Bool :=
    if x.mantissa % 2 = 0 then low ≤ c * step && c * step ≤ high
    else low < c * step && c * step < high
  let below := here / step
  let above := below + 1
  let toBelow := here - below * step
  let toAbove := above * step - here
  let nearer := if toBelow < toAbove then below else if toAbove < toBelow then above else
    below + below % 2
  if readsBack nearer then some ⟨nearer, power⟩
  else if readsBack below then some ⟨below, power⟩
  else if readsBack above then some ⟨above, power⟩
  else none

/-- Seventeen digits always read back, so the first hit among the grids is the shortest. -/
def shortest (x : Binary64) : Decimal :=
  if x.isZero then ⟨0, 0⟩ else
  let first := decimalExponent x.numerator x.denominator
  let hit := (List.range 17).findSome? fun (n : Nat) => x.gridPoint? (first - n)
  hit.getD ⟨0, 0⟩

end Binary64

end JsonKeys
