import JsonKeys.Query.Basic
import JsonKeys.Record.Options
import JsonKeys.Text.Decimal

/-!
The command line. Short options combine in one argument, and a value may follow its option within
the argument or as the next one.
-/
namespace JsonKeys.Command

structure Arguments where
  input : Option String := none
  output : Option String := none
  root : Option String := none
  get : Option String := none
  defaults : List (String × String) := []
  set : List (String × String) := []
  del : Option String := none
  any : Bool := false
  list : Bool := false
  inspect : Bool := false
  count : Bool := false
  flatten : Option String := none
  rows : Option String := none
  prepend : Option String := none
  fullscan : Bool := false
  fullpath : Bool := false
  quote : Option Char := none
  indent : Option Nat := none
  nocolor : Bool := false
  slice : Bool := false
  verbosity : Nat := 0
deriving DecidableEq, Repr

/-- An option that is set or not, and at most once. -/
inductive Flag where
  | any
  | list
  | inspect
  | count
  | fullscan
  | fullpath
  | nocolor
  | slice
deriving DecidableEq, Repr

/-- An option with values. All but the two with pairs of them come at most once. -/
inductive Setting where
  | output
  | root
  | get
  | getDefault
  | set
  | del
  | flatten
  | rows
  | prepend
  | quote
  | indent
deriving DecidableEq, Repr

inductive Switch where
  | flag (flag : Flag)
  | setting (setting : Setting)
  | verbose
  | version
  | help
deriving DecidableEq, Repr

namespace Switch

def ofShort? : Char → Option Switch
  | 'o' => some (.setting .output)
  | 'r' => some (.setting .root)
  | 'g' => some (.setting .get)
  | 'G' => some (.setting .getDefault)
  | 'S' => some (.setting .set)
  | 'd' => some (.setting .del)
  | 'a' => some (.flag .any)
  | 'l' => some (.flag .list)
  | 'i' => some (.flag .inspect)
  | 'c' => some (.flag .count)
  | 'F' => some (.setting .flatten)
  | 'f' => some (.flag .fullscan)
  | 'p' => some (.flag .fullpath)
  | 'q' => some (.setting .quote)
  | 'I' => some (.setting .indent)
  | 'n' => some (.flag .nocolor)
  | 's' => some (.flag .slice)
  | 'v' => some .verbose
  | 'V' => some .version
  | 'h' => some .help
  | _ => none

def ofLong? : String → Option Switch
  | "output" => some (.setting .output)
  | "root" => some (.setting .root)
  | "get" => some (.setting .get)
  | "getdefault" => some (.setting .getDefault)
  | "set" => some (.setting .set)
  | "del" => some (.setting .del)
  | "any" => some (.flag .any)
  | "list" => some (.flag .list)
  | "inspect" => some (.flag .inspect)
  | "count" => some (.flag .count)
  | "flatten" => some (.setting .flatten)
  | "rows" => some (.setting .rows)
  | "prepend" => some (.setting .prepend)
  | "fullscan" => some (.flag .fullscan)
  | "fullpath" => some (.flag .fullpath)
  | "quotechar" => some (.setting .quote)
  | "indent" => some (.setting .indent)
  | "nocolor" => some (.flag .nocolor)
  | "slice" => some (.flag .slice)
  | "verbose" => some .verbose
  | "version" => some .version
  | "help" => some .help
  | _ => none

end Switch

/-- The most values a setting takes. -/
def Setting.capacity : Setting → Nat
  | getDefault | set => 2
  | _ => 1

/-- Why a command line is not carried out. -/
inductive Stop where
  | rejected
  | version
  | help
deriving DecidableEq, Repr

/-- What is read so far: the arguments, a setting that waits for values, and whether the options are
over. -/
structure Reading where
  arguments : Arguments
  pending : Option (Setting × List String)
  trailing : Bool

namespace Arguments

def raise (a : Arguments) : Flag → Option Arguments
  | .any => if a.any then none else some { a with any := true }
  | .list => if a.list then none else some { a with list := true }
  | .inspect => if a.inspect then none else some { a with inspect := true }
  | .count => if a.count then none else some { a with count := true }
  | .fullscan => if a.fullscan then none else some { a with fullscan := true }
  | .fullpath => if a.fullpath then none else some { a with fullpath := true }
  | .nocolor => if a.nocolor then none else some { a with nocolor := true }
  | .slice => if a.slice then none else some { a with slice := true }

/-- A value in a place that may be filled once. -/
private def fill {α : Type} (place : Option α) (value : α) : Option (Option α) :=
  if place.isSome then none else some (some value)

def quoteChar? (text : String) : Option Char :=
  match text.toList with
  | [c] => some c
  | _ => none

def indent? (text : String) : Option Nat := do
  let n ← Text.readNat? text.toList
  if n < 0x10000000000000000 then some n else none

/-- Takes up a setting with all its values. Keys to flatten may be left out, and are `0` then. -/
def put (a : Arguments) (setting : Setting) (values : List String) : Option Arguments :=
  match setting, values with
  | .output, [v] => do return { a with output := ← fill a.output v }
  | .root, [v] => do return { a with root := ← fill a.root v }
  | .get, [v] => do return { a with get := ← fill a.get v }
  | .getDefault, [keys, v] => some { a with defaults := a.defaults ++ [(keys, v)] }
  | .set, [keys, v] => some { a with set := a.set ++ [(keys, v)] }
  | .del, [v] => do return { a with del := ← fill a.del v }
  | .flatten, [] => do return { a with flatten := ← fill a.flatten "0" }
  | .flatten, [v] => do return { a with flatten := ← fill a.flatten v }
  | .rows, [v] => do return { a with rows := ← fill a.rows v }
  | .prepend, [v] => do return { a with prepend := ← fill a.prepend v }
  | .quote, [v] => do return { a with quote := ← fill a.quote (← quoteChar? v) }
  | .indent, [v] => do return { a with indent := ← fill a.indent (← indent? v) }
  | _, _ => none

end Arguments

namespace Reading

private def orReject {α : Type} : Option α → Except Stop α
  | some a => .ok a
  | none => .error .rejected

/-- Takes up the setting that waits, with the values it has. -/
def settle (r : Reading) : Except Stop Reading :=
  match r.pending with
  | none => .ok r
  | some (setting, values) => do
    return { r with arguments := ← orReject (r.arguments.put setting values), pending := none }

/-- An option that takes no value. -/
def signal (r : Reading) : Switch → Except Stop Reading
  | .flag flag => do
    let r ← r.settle
    return { r with arguments := ← orReject (r.arguments.raise flag) }
  | .verbose => do
    let r ← r.settle
    return { r with arguments := { r.arguments with verbosity := r.arguments.verbosity + 1 } }
  | .version => do
    let _ ← r.settle
    .error .version
  | .help => do
    let _ ← r.settle
    .error .help
  | .setting _ => .error .rejected

/-- A setting with the value attached to it, or with values to come. -/
def begin (r : Reading) (setting : Setting) (attached : Option String) : Except Stop Reading := do
  let r ← r.settle
  match attached with
  | some v => return { r with arguments := ← orReject (r.arguments.put setting [v]) }
  | none => return { r with pending := some (setting, []) }

/-- A value attached to a short option may follow an equals sign. -/
def attached? : List Char → Option String
  | [] => none
  | '=' :: cs => some (String.ofList cs)
  | cs => some (String.ofList cs)

/-- Short options in one argument, the last of them perhaps with a value. -/
def short (r : Reading) : List Char → Except Stop Reading
  | [] => .ok r
  | c :: cs =>
    match Switch.ofShort? c with
    | none => .error .rejected
    | some (.setting setting) => r.begin setting (attached? cs)
    | some switch => do (← r.signal switch).short cs

/-- A long option, perhaps with a value behind an equals sign. -/
def long (r : Reading) (cs : List Char) : Except Stop Reading :=
  let value := match cs.dropWhile (· ≠ '=') with
    | [] => none
    | _ :: value => some (String.ofList value)
  match Switch.ofLong? (String.ofList (cs.takeWhile (· ≠ '='))), value with
  | none, _ => .error .rejected
  | some (.setting setting), value => r.begin setting value
  | some _, some _ => .error .rejected
  | some switch, none => r.signal switch

def positional (r : Reading) (argument : String) : Except Stop Reading := do
  let r ← r.settle
  if r.arguments.input.isSome then .error .rejected
  else return { r with arguments := { r.arguments with input := some argument } }

/-- An argument that is no option: a value that is waited for, or the input. -/
def value (r : Reading) (argument : String) : Except Stop Reading :=
  match r.pending with
  | none => r.positional argument
  | some (setting, values) =>
    let r := { r with pending := some (setting, values ++ [argument]) }
    if values.length + 1 < setting.capacity then .ok r else r.settle

def step (r : Reading) (argument : String) : Except Stop Reading :=
  if r.trailing then r.positional argument
  else match argument.toList with
    | ['-', '-'] => .ok { r with trailing := true }
    | '-' :: '-' :: cs => r.long cs
    | '-' :: c :: cs => r.short (c :: cs)
    | _ => r.value argument

end Reading

/-- Reads a command line. Keys to prepend go with rows only. -/
def Arguments.ofList (arguments : List String) : Except Stop Arguments := do
  let r ← arguments.foldlM Reading.step ⟨{}, none, false⟩
  let a := (← r.settle).arguments
  if a.prepend.isSome ∧ a.rows.isNone then .error .rejected else return a

namespace Arguments

def options (a : Arguments) : Options :=
  { quote := a.quote.getD '"', deep := a.fullscan, fullNames := a.fullpath, lenient := a.any,
    whole := a.slice }

/-- Of several forms the first in this order counts. -/
def form (a : Arguments) : Form :=
  if a.inspect then .profiles
  else if a.list then .keys
  else if a.count then .lengths
  else match a.rows, a.flatten with
    | some root, _ => .table root a.prepend
    | none, some keys => .flat (some keys)
    | none, none => .document

def query (a : Arguments) : Query :=
  { root := a.root, get := a.get, defaults := a.defaults, set := a.set, del := a.del,
    form := a.form }

end Arguments

end JsonKeys.Command
