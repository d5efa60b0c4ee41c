import JsonKeys.Command.Arguments
import JsonKeys.Display.Basic
import JsonKeys.Display.JsonText
import JsonKeys.Query.Answer
import JsonKeys.Value.Reader
import JsonKeys.Value.Writer

/-! What a command writes for a given input. -/
namespace JsonKeys.Command

inductive Problem where
  /-- The system could not read or write. -/
  | io (message : String)
  /-- The input is no JSON text. -/
  | decode
  | keys (failure : Failure)

def Problem.text (problem : Problem) (ink : Ink) : String :=
  match problem with
  | io message => Display.notice "IOError" message ink
  | decode => Display.notice "JSONDecodeError" "the input is not a JSON text" ink
  | keys failure => Display.failure failure ink

/-- The text to put out or a problem, and the log up to then. -/
structure Outcome where
  log : List LogLine
  result : Except Problem String

/-- A line of the log: the level in five places, and the part of the program. Lines after the first
of a text are set in. -/
def logText (line : LogLine) : String :=
  let level := Column.padRight 5 line.level.name
  let source := match line.topic with
    | .command => "jsoncut"
    | .keys => "jsoncut::keys"
    | .outline => "jsoncut::crawl"
    | .query => "jsoncut::cut"
    | .table => "jsoncut::flatten"
  let text := line.text.toList.flatMap fun c => if c = '\n' then "\n    ".toList else [c]
  "[" ++ level ++ " " ++ source ++ "] " ++ String.ofList text ++ "\n"

/-- How often the verbosity has to be raised for a line of the level to show. -/
def verbosityOf : LogLevel → Nat
  | .info => 1
  | .debug => 2
  | .trace => 3

private def lines (texts : List String) : String := String.join (texts.map (· ++ "\n"))

def answerText (answer : Answer) (indent : Nat) (ink : Ink) : String :=
  match answer with
  | .document v => Display.jsonText (v.write indent) ink ++ "\n"
  | .keys keys => lines (keys.map fun key => Display.numberedKey key ink)
  | .profiles profiles => lines (Display.profiles profiles ink)
  | .lengths (some lengths) => lines (Display.lengths lengths ink)
  | .lengths none => ""

/-- The line that the walk for the keys beside a failure leaves. -/
def failureLog (failure : Failure) : List LogLine :=
  match failure.presentKeys with
  | some keys => [outlineLine keys.length false]
  | none => []

namespace Arguments

/-- Whether the output goes to standard output. -/
def toStandardOutput (a : Arguments) : Bool := a.output.isNone || a.output == some "-"

/-- Whether the input comes from standard input. -/
def fromStandardInput (a : Arguments) : Bool := a.input.isNone || a.input == some "-"

/-- Carries out the arguments on the text of the input. `terminal` says whether the output goes to
one, which has documents indented. -/
def outcome (a : Arguments) (input : Except String String) (terminal : Bool) : Outcome :=
  match input with
  | .error message => ⟨[], .error (.io message)⟩
  | .ok text =>
    match Value.ofText? text with
    | none => ⟨[], .error .decode⟩
    | some document =>
      let size := Text.numeral text.utf8ByteSize
      let read : LogLine := ⟨.info, .command, "read " ++ size ++ " bytes of JSON"⟩
      let run := a.query.answer document a.options
      match run.result with
      | .ok answer =>
        let indent := a.indent.getD (if terminal then 2 else 0)
        ⟨read :: run.log, .ok (answerText answer indent ⟨!a.nocolor && terminal⟩)⟩
      | .error failure => ⟨read :: run.log ++ failureLog failure, .error (.keys failure)⟩

/-- The lines of a log that the verbosity lets through. -/
def logOutput (a : Arguments) (log : List LogLine) : String :=
  String.join ((log.filter fun line => verbosityOf line.level ≤ a.verbosity).map logText)

end Arguments

def versionText : String := "jsoncut 0.6.0\n"

def helpText : String := "Usage: jsoncut [OPTIONS] [JSONFILE]\n"

end JsonKeys.Command
