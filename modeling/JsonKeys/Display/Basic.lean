import JsonKeys.Display.Color
import JsonKeys.Display.Columns
import JsonKeys.Failure
import JsonKeys.Outline.Numbering

/-! What the command prints about outlines, profiles, lengths and failures. -/
namespace JsonKeys.Display

def numberedKey (key : NumberedKey) (ink : Ink) : String :=
  ink.paint .yellow key.numberText ++ " " ++ key.path

def profiles (profiles : List Profile) (ink : Ink) : List String :=
  Profile.lines profiles fun
    | .key => ink.paint .white
    | .value => ink.paint .cyan

def lengths (lengths : ArrayLengths) (ink : Ink) : List String :=
  lengths.lines fun
    | .key => ink.paint .cyan
    | .value => ink.paint .white

/-- One line `Name: message`. -/
def notice (name message : String) (ink : Ink) : String :=
  ink.bold .red name ++ ": " ++ ink.paint .white message ++ "\n"

def rule (width : Nat) (ink : Ink) : String :=
  ink.paint .yellow (String.ofList (List.replicate width '-')) ++ "\n"

/-- A title between two rules. -/
def titled (rule title : String) : String := rule ++ title ++ "\n" ++ rule

def originLines (origin : Origin) (ink : Ink) : String :=
  let paths := "[" ++ ", ".intercalate (origin.paths.map Path.text) ++ "]"
  "Operation: " ++ ink.paint .red origin.operation.name ++ "\n" ++
  "Item #: " ++ ink.paint .red (Text.numeral origin.item) ++ "\n" ++
  "Parsed Key List: " ++ ink.paint .red paths ++ "\n"

/-- What was not there, and below it the keys that are. -/
def absence (name missing : String) (origin : Origin) (ink : Ink) : String :=
  let rule := rule 39 ink
  let lines := (NumberedKey.ofPaths (outline origin.document false)).map fun key =>
    ink.paint .white key.line ++ "\n"
  titled rule (name ++ ": " ++ ink.bold .red missing) ++ originLines origin ink ++
    titled rule "Available Keys:" ++ String.join lines

/-- What stopped an operation, with the record and the keys concerned, or one line about a failure
of no operation. -/
def failure (failure : Failure) (ink : Ink) : String :=
  match failure with
  | .fault fault (some origin) =>
    match fault with
    | .missingMember name => absence fault.name name origin ink
    | .indexOutOfRange index _ => absence fault.name (Text.signedNumeral index.toInt) origin ink
    | .kindMismatch _ _ =>
      titled (rule 40 ink) (ink.bold .red fault.message) ++ originLines origin ink
  | other => notice other.name other.detail ink

end JsonKeys.Display
