/-! Decimal integers: their text, and reading it back. -/
namespace JsonKeys.Text

def natText (n : Nat) : List Char := Nat.toDigits 10 n

def intText (n : Int) : List Char :=
  if n < 0 then '-' :: natText n.natAbs else natText n.natAbs

/-- A natural number as a text. -/
def numeral (n : Nat) : String := String.ofList (natText n)

/-- An integer as a text. -/
def signedNumeral (n : Int) : String := String.ofList (intText n)

/-- Reads one or more digits. -/
def readDigits? (cs : List Char) : Option Nat :=
  if cs ≠ [] ∧ cs.all Char.isDigit then some (Nat.ofDigitChars 10 cs 0) else none

/-- Reads digits after an optional plus sign. -/
def readNat? : List Char → Option Nat
  | '+' :: cs => readDigits? cs
  | cs => readDigits? cs

/-- Reads digits after an optional sign. -/
def readInt? : List Char → Option Int
  | '-' :: cs => (readDigits? cs).map fun n => -(n : Int)
  | cs => (readNat? cs).map Int.ofNat

/-- Reads an integer that a 64-bit word holds. -/
def readInt64? (cs : List Char) : Option Int64 := do
  let n ← readInt? cs
  if -0x8000000000000000 ≤ n ∧ n < 0x8000000000000000 then some (Int64.ofInt n) else none

theorem readDigits?_natText (n : Nat) : readDigits? (natText n) = some n := by
  have hd : ∀ c ∈ Nat.toDigits 10 n, c.isDigit = true := fun c hc =>
    Nat.isDigit_of_mem_toDigits (by decide) (by decide) hc
  simpa [readDigits?, natText, Nat.toDigits_ne_nil, Nat.ofDigitChars_toDigits] using hd

end JsonKeys.Text
