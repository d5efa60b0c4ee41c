import JsonKeys.Place.Read

/-! Changing a value at the place that a path points to. -/
namespace JsonKeys

/-- The position in an array that an index behind a slice stands for. -/
def elementOf (s : Slice) (next : Segment) (items : List Value) :
    Except Fault (Fin items.length) := do
  let ks ← s.positions items.length
  match next.subscript? with
  | some (.index i) => return ks.get (← indexPosition i ks.length)
  | _ => .error (.kindMismatch next.text .array)

/-- Puts what `edit` makes of the last segment's place where its container was. A slice and the
index behind it count as one element of the array itself, so that the change reaches the array and
not a copy. -/
def editAt (edit : Segment → Place → Except Fault Value) : Path → Value → Except Fault Value
  | [], v => .error (.kindMismatch "" v.kind)
  | [segment], v => do edit segment (← segment.place v)
  | segment :: next :: rest, v => do
    match ← segment.place v with
    | .member members name =>
      match members.get? name with
      | some child => return .object (members.put name (← editAt edit (next :: rest) child))
      | none => .error (.missingMember name)
    | .element items k => return .array (items.set k (← editAt edit (next :: rest) (items.get k)))
    | .slice items s =>
      let k ← elementOf s next items
      match rest with
      | [] => edit next (.element items k)
      | _ :: _ => return .array (items.set k (← editAt edit rest (items.get k)))

/-- Replaces the items at the given positions, one by one. -/
def setMany (items : List Value) (positions : List (Fin items.length)) (values : List Value) :
    List Value :=
  (positions.zip values).foldl (fun acc kv => acc.set kv.1 kv.2) items

/-- Replaces what a slice selects by the items of an array. A slice without gaps takes any number of
them, any other slice as many as it selects. -/
def replaceSlice (items : List Value) (s : Slice) (value : Value) (segment : Segment) :
    Except Fault Value :=
  match value with
  | .array values =>
    match s.span? items.length with
    | some (start, stop) => .ok (.array (items.take start ++ values ++ items.drop stop))
    | none => do
      let ks ← s.positions items.length
      if ks.length = values.length then .ok (.array (setMany items ks values))
      else .error (.kindMismatch segment.text .array)
  | other => .error (.kindMismatch segment.text other.kind)

/-- The container with `value` at the place. -/
def Place.set (value : Value) (segment : Segment) : Place → Except Fault Value
  | .member members name => .ok (.object (members.put name value))
  | .element items k => .ok (.array (items.set k value))
  | .slice items s => replaceSlice items s value segment

/-- The items at no position of the list. -/
def eraseMany (items : List Value) (positions : List (Fin items.length)) : List Value :=
  (items.zipIdx.filter fun iv => !(positions.any fun k => k.val == iv.2)).map Prod.fst

/-- The container without what is at the place. -/
def Place.erase : Place → Except Fault Value
  | .member members name =>
    match members.get? name with
    | some _ => .ok (.object (members.erase name))
    | none => .error (.missingMember name)
  | .element items k => .ok (.array (items.eraseIdx k))
  | .slice items s => do return .array (eraseMany items (← s.positions items.length))

/-- Unless strict, a missing place leaves the value as it was. -/
def tolerate (strict : Bool) (v : Value) (result : Except Fault Value) : Except Fault Value :=
  match result with
  | .error fault => if !strict && fault.isMissingPlace then .ok v else .error fault
  | .ok w => .ok w

@[simp] theorem tolerate_true (v : Value) (result : Except Fault Value) :
    tolerate true v result = result := by
  cases result <;> rfl

namespace Value

/-- Puts `value` at a path: adds or replaces a member, replaces an element, or replaces what a slice
selects. -/
def set (v : Value) (path : Path) (value : Value) (strict : Bool) : Except Fault Value :=
  tolerate strict v (editAt (fun segment place => place.set value segment) path v)

/-- Removes the member, element or slice at a path. -/
def erase (v : Value) (path : Path) (strict : Bool) : Except Fault Value :=
  tolerate strict v (editAt (fun _ place => place.erase) path v)

end Value

end JsonKeys
