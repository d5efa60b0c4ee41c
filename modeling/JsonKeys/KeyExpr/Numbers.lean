import JsonKeys.Path.Basic

/-! Key numbers and ranges of them, which stand for keys of a numbered outline. -/
namespace JsonKeys.KeyExpr

/-- Made of digits, dashes and colons. -/
def isNumberToken (token : String) : Bool :=
  !token.isEmpty && token.toList.all fun c => c.isDigit || c == '-' || c == ':'

/-- Splits at the first dash or colon, if there is one. -/
def splitRange (cs : List Char) : List Char × Option (List Char) :=
  let isMark (c : Char) : Bool := c == '-' || c == ':'
  match cs.dropWhile (!isMark ·) with
  | [] => (cs, none)
  | _ :: last => (cs.takeWhile (!isMark ·), some last)

/-- Reads the number of one of `count` keys. -/
def keyNumber? (count : Nat) (cs : List Char) : Option Nat := do
  let n ← Text.readNat? cs
  if 1 ≤ n ∧ n ≤ count then some n else none

/-- The end of a range; one left out is the default. -/
def rangeEnd? (count default : Nat) (cs : List Char) : Option Nat :=
  if cs.isEmpty then some default else keyNumber? count cs

/-- Offsets of keys in a row, from `start` up to `stop` and without it. -/
structure KeyRange where
  start : Nat
  stop : Nat
deriving DecidableEq, Repr

/-- The offsets that a key number `3` or a range `2-4`, `2-`, `-4` or `-` picks among `count` keys;
a reversed range picks none. There is no answer if a number is no key's. -/
def pickRange? (token : String) (count : Nat) : Option KeyRange := do
  match splitRange token.toList with
  | (number, none) =>
    let n ← keyNumber? count number
    return ⟨n - 1, n⟩
  | (first, some last) =>
    let first ← rangeEnd? count 1 first
    let last ← rangeEnd? count count last
    return ⟨first - 1, max last (first - 1)⟩

/-- The keys that a key number or a range of them picks. -/
def pickKeys? (token : String) (keys : List String) : Option (List String) :=
  (pickRange? token keys.length).map fun range => keys.extract range.start range.stop

/-- The paths that a key number or a range of them stands for. -/
def numberPaths? (token : String) (keys : List String) : Option (List Path) :=
  (pickKeys? token keys).map (·.map Path.ofText)

end JsonKeys.KeyExpr
