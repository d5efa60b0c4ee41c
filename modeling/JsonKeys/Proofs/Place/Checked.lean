import JsonKeys.Proofs.Path.Words
import JsonKeys.Proofs.Place.Target

/-!
Access with every step checked. Indexes and bounds are 64-bit words, a path is read segment by
segment at a position in it, and what a segment stands for is held apart from the container it is
taken from. Besides its faults such a run has traps for all that would go wrong: a sum that no word
holds, a position outside its array, and a step that does not fit its container.
-/
namespace JsonKeys

/-- How a segment reads against a container, before its bounds are looked at. -/
inductive Step where
  | member (name : String)
  | index (position : Int64)
  | slice (slice : Slice)
deriving DecidableEq, Repr

/-- Where a step is taken from a container, in case it does not fit. A slice is never gone down
into. -/
inductive Arm where
  | read
  | descend
  | descendSlice
  | narrow
  | assign
  | remove
deriving DecidableEq, Repr

inductive Trap where
  | overflow (value : Int)
  | outOfBounds (position length : Nat)
  | brokenSpan (start stop length : Nat)
  | outOfFlags
  | unfit (arm : Arm) (fault : Fault)
deriving DecidableEq, Repr

/-- A run halts on a fault of its input, or on a trap. -/
inductive Halt where
  | trap (trap : Trap)
  | fault (fault : Fault)
deriving DecidableEq, Repr

abbrev Checked (α : Type) := Except Halt α

def Segment.step (segment : Segment) : Value → Except Fault Step
  | .object _ =>
    match segment with
    | .name text => .ok (.member text)
    | _ => .error (.kindMismatch segment.text .object)
  | .array _ =>
    match segment.subscript? with
    | some (.index i) => .ok (.index i)
    | some (.slice s) => .ok (.slice s)
    | none => .error (.kindMismatch segment.text .array)
  | value => .error (.kindMismatch segment.text value.kind)

/-- Where a step is to be taken in a document: the position of its container, and the container. -/
structure Reference where
  position : Position
  container : Value
  step : Step

def Reference.below (c : Coordinate) (r : Reference) : Reference :=
  { r with position := c :: r.position }

namespace Checked

variable {α : Type}

def trap (trap : Trap) : Checked α := .error (.trap trap)

def fault (fault : Fault) : Checked α := .error (.fault fault)

def ofFault (result : Except Fault α) : Checked α := result.mapError .fault

def ofWord (result : Except Overflow α) : Checked α :=
  result.mapError fun overflow => .trap (.overflow overflow.value)

def item (items : List α) (k : Nat) : Checked α :=
  match items[k]? with
  | some a => .ok a
  | none => trap (.outOfBounds k items.length)

def overwrite (items : List α) (k : Nat) (a : α) : Checked (List α) :=
  if k < items.length then .ok (items.set k a) else trap (.outOfBounds k items.length)

def takeOut (items : List α) (k : Nat) : Checked (List α) :=
  if k < items.length then .ok (items.eraseIdx k) else trap (.outOfBounds k items.length)

/-- Replaces the items from `start` up to `stop`. -/
def splice (items : List α) (start stop : Nat) (new : List α) : Checked (List α) :=
  if start ≤ stop ∧ stop ≤ items.length then .ok (items.take start ++ new ++ items.drop stop)
  else trap (.brokenSpan start stop items.length)

/-- Keeps the items whose flags are not raised. -/
def sift : List α → List Bool → Checked (List α)
  | [], _ => .ok []
  | a :: items, flag :: flags => do
    let rest ← sift items flags
    return if flag then rest else a :: rest
  | _ :: _, [] => trap .outOfFlags

/-- Counts a negative index from the end. -/
def fromEnd (i : Int64) (len : Nat) : Checked Int64 :=
  if i < 0 then ofWord (Word.add i (Int64.ofNat len)) else .ok i

def indexPosition (i : Int64) (len : Nat) : Checked Nat := do
  let k ← fromEnd i len
  if 0 ≤ k ∧ k < Int64.ofNat len then .ok k.toUInt64.toNat else fault (.indexOutOfRange i len)

def positions (s : Slice) (len : Nat) : Checked (List Nat) := do
  match ← ofWord (s.wordPositions len) with
  | some words => .ok (words.map UInt64.toNat)
  | none => fault (.kindMismatch s.text .array)

def follow (v : Value) (segment : Segment) : Checked Value := do
  match ← ofFault (segment.step v), v with
  | .member name, .object members =>
    match Members.get? members name with
    | some child => .ok child
    | none => fault (.missingMember name)
  | .index i, .array items => do item items (← indexPosition i items.length)
  | .slice s, .array items => do return .array (← (← positions s items.length).mapM (item items))
  | _, other => trap (.unfit .read (.kindMismatch segment.text other.kind))

def get (v : Value) (path : Path) : Checked Value := path.foldlM follow v

/-- The index that a slice and the segment behind it come to in the array itself. -/
def narrow (s : Slice) (next : Segment) (v : Value) : Checked Int64 :=
  match v with
  | .array items => do
    let ks ← positions s items.length
    match ← ofFault (next.step v) with
    | .index i => return Int64.ofNat (← item ks (← indexPosition i ks.length))
    | _ => fault (.kindMismatch next.text .array)
  | other => trap (.unfit .narrow (.kindMismatch next.text other.kind))

/-- Folds a slice and the segment behind it into one index, and counts the segments that it takes
in. -/
def fold (path : Path) (pos : Nat) (step : Step) (v : Value) :
    Checked (Step × { taken : Nat // 0 < taken }) :=
  match step, path[pos + 1]? with
  | .slice s, some next => do return (.index (← narrow s next v), ⟨2, by decide⟩)
  | step, _ => .ok (step, ⟨1, by decide⟩)

def descend (v : Value) (step : Step) (segment : Segment) : Checked (Coordinate × Value) :=
  match step, v with
  | .member name, .object members =>
    match Members.get? members name with
    | some child => .ok (.member name, child)
    | none => fault (.missingMember name)
  | .index i, .array items => do
    let k ← indexPosition i items.length
    return (.element k, ← item items k)
  | .slice _, _ => trap (.unfit .descendSlice (.kindMismatch segment.text .array))
  | _, other => trap (.unfit .descend (.kindMismatch segment.text other.kind))

/-- The last step of a path, from a position in it on. -/
def locate (path : Path) (pos : Nat) (v : Value) : Checked Reference :=
  if _h : pos < path.length then do
    let (step, ⟨taken, _⟩) ← fold path pos (← ofFault (path[pos].step v)) v
    if pos + taken = path.length then return ⟨[], v, step⟩
    else
      let (c, child) ← descend v step path[pos]
      return (← locate path (pos + taken) child).below c
  else trap (.outOfBounds pos path.length)
termination_by path.length - pos

/-- Puts what `change` makes of the last step's container where that was. -/
def edit (change : Step → Value → Segment → Checked Value) (path : Path) (v : Value) :
    Checked Value :=
  if path.isEmpty then fault (.kindMismatch "" v.kind)
  else do
    let r ← locate path 0 v
    let last ← item path (path.length - 1)
    return v.putAt r.position (← change r.step r.container last)

def replaceSlice (items : List Value) (s : Slice) (value : Value) (segment : Segment) :
    Checked Value :=
  match value with
  | .array values => do
    match ← ofWord (s.wordSpan items.length) with
    | some (start, stop) => return .array (← splice items start.toNat stop.toNat values)
    | none =>
      let ks ← positions s items.length
      if ks.length = values.length then
        return .array (← (ks.zip values).foldlM (fun acc kv => overwrite acc kv.1 kv.2) items)
      else fault (.kindMismatch segment.text .array)
  | other => fault (.kindMismatch segment.text other.kind)

def assign (value : Value) (step : Step) (v : Value) (last : Segment) : Checked Value :=
  match step, v with
  | .member name, .object members => .ok (.object (Members.put members name value))
  | .index i, .array items => do
    return .array (← overwrite items (← indexPosition i items.length) value)
  | .slice s, .array items => replaceSlice items s value last
  | _, other => trap (.unfit .assign (.kindMismatch last.text other.kind))

def remove (step : Step) (v : Value) (last : Segment) : Checked Value :=
  match step, v with
  | .member name, .object members =>
    match Members.get? members name with
    | some _ => .ok (.object (Members.erase members name))
    | none => fault (.missingMember name)
  | .index i, .array items => do return .array (← takeOut items (← indexPosition i items.length))
  | .slice s, .array items => do
    let doomed ← (← positions s items.length).foldlM (fun flags k => overwrite flags k true)
      (List.replicate items.length false)
    return .array (← sift items doomed)
  | _, other => trap (.unfit .remove (.kindMismatch last.text other.kind))

def tolerate (strict : Bool) (v : Value) (result : Checked Value) : Checked Value :=
  match result with
  | .error (.fault f) => if !strict && f.isMissingPlace then .ok v else fault f
  | other => other

def set (v : Value) (path : Path) (value : Value) (strict : Bool) : Checked Value :=
  tolerate strict v (edit (assign value) path v)

def erase (v : Value) (path : Path) (strict : Bool) : Checked Value :=
  tolerate strict v (edit remove path v)

end Checked

end JsonKeys
