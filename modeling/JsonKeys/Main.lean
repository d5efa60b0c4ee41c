import JsonKeys.Command.Outcome

/-! The command: reads the input, and writes the outcome to the output and to standard error. -/
namespace JsonKeys.Command

/-- What the system says of a failed reading or writing. -/
def systemMessage : IO.Error → String
  | .noFileOrDirectory .. => "No such file or directory (os error 2)"
  | .permissionDenied .. => "Permission denied (os error 13)"
  | .inappropriateType .. => "Is a directory (os error 21)"
  | e => e.toString

def readInput (a : Arguments) : IO (Except String String) := do
  try
    match a.input with
    | some path =>
      if path = "-" then return .ok (← (← IO.getStdin).readToEnd)
      else return .ok (← IO.FS.readFile path)
    | none => return .ok (← (← IO.getStdin).readToEnd)
  catch e => return .error (systemMessage e)

def fail (problem : Problem) (ink : Ink) : IO UInt32 := do
  IO.eprint (problem.text ink)
  return 1

def writeOutput (a : Arguments) (text : String) (ink : Ink) : IO UInt32 := do
  try
    match a.output with
    | some path => if path = "-" then IO.print text else IO.FS.writeFile path text
    | none => IO.print text
    return 0
  catch e => fail (.io (systemMessage e)) ink

/-- Runs a command line. The exit code is 1 for a problem and 2 for a command line that is none. -/
def run (arguments : List String) : IO UInt32 := do
  match Arguments.ofList arguments with
  | .error .rejected =>
    IO.eprint helpText
    return 2
  | .error .version =>
    IO.print versionText
    return 0
  | .error .help =>
    IO.print helpText
    return 0
  | .ok a =>
    let stdout ← IO.getStdout
    let stderr ← IO.getStderr
    let ink : Ink := ⟨!a.nocolor && (← stderr.isTty)⟩
    let terminal := a.toStandardOutput && (← stdout.isTty)
    let outcome := a.outcome (← readInput a) terminal
    IO.eprint (a.logOutput outcome.log)
    match outcome.result with
    | .ok text => writeOutput a text ink
    | .error problem => fail problem ink

end JsonKeys.Command

def main (arguments : List String) : IO UInt32 := JsonKeys.Command.run arguments
