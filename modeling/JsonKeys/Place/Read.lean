import JsonKeys.Place.Basic

/-! Reading the value that a path points to. -/
namespace JsonKeys

/-- The items at the given positions, in the order of the positions. -/
def pick (items : List Value) (positions : List (Fin items.length)) : List Value :=
  positions.map items.get

/-- A slice reads as a new array of the items it selects. -/
def Place.get : Place → Except Fault Value
  | .member members name =>
    match members.get? name with
    | some v => .ok v
    | none => .error (.missingMember name)
  | .element items k => .ok (items.get k)
  | .slice items s => do return .array (pick items (← s.positions items.length))

namespace Value

def follow (v : Value) (segment : Segment) : Except Fault Value := do (← segment.place v).get

/-- The value at a path; the empty path leads to the value itself. -/
def get (v : Value) (path : Path) : Except Fault Value := path.foldlM follow v

/-- The value at a path, or the default if a member on the way is missing. -/
def getOr (v : Value) (path : Path) (default : Value) : Except Fault Value :=
  match v.get path with
  | .error (.missingMember _) => .ok default
  | result => result

end Value

end JsonKeys
