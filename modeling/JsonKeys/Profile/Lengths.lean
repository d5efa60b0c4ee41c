import JsonKeys.Value.Basic

/-! The lengths of the arrays at the top of a document. -/
namespace JsonKeys

/-- The length of a root array, or of each array among the members of a root object. -/
inductive ArrayLengths where
  | root (length : Nat)
  | members (lengths : List (String × Nat))
deriving DecidableEq, Repr

namespace ArrayLengths

def ofMember? : String × Value → Option (String × Nat)
  | (name, .array items) => some (name, items.length)
  | _ => none

/-- None for a scalar, which holds no arrays. -/
def ofDocument? : Value → Option ArrayLengths
  | .array items => some (.root items.length)
  | .object ms => some (.members (ms.filterMap ofMember?))
  | _ => none

end ArrayLengths

end JsonKeys
