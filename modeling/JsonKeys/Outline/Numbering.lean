import JsonKeys.Outline.Walk

/-! The numbered outline of a document. Key expressions may use the numbers in place of the keys. -/
namespace JsonKeys

/-- One line of an outline. Numbers begin at 1 and are set to the right in `width` places. -/
structure NumberedKey where
  number : Nat
  width : Nat
  path : String
deriving DecidableEq, Repr

namespace NumberedKey

def padLeft (width : Nat) (cs : List Char) : List Char :=
  List.replicate (width - cs.length) ' ' ++ cs

def numberText (key : NumberedKey) : String :=
  String.ofList (padLeft key.width (Text.natText key.number))

def line (key : NumberedKey) : String := key.numberText ++ " " ++ key.path

/-- Numbers the paths, in places enough for the last number. -/
def ofPaths (paths : List String) : List NumberedKey :=
  let width := (Text.natText paths.length).length
  paths.zipIdx.map fun p => ⟨p.2 + 1, width, p.1⟩

end NumberedKey

def numberedOutline (document : Value) (deep : Bool) : List NumberedKey :=
  NumberedKey.ofPaths (outline document deep)

/-- Where key numbers are looked up: in an outline that is there, or in that of a document. -/
inductive Numbering where
  | given (keys : List String)
  | ofDocument (document : Value)

def Numbering.keys (deep : Bool) : Numbering → List String
  | given keys => keys
  | ofDocument v => outline v deep

end JsonKeys
