import JsonKeys.Value.Basic

/-! A document as a batch of records. -/
namespace JsonKeys

/-- A root array holds many records; anything else is one. -/
inductive Records where
  | many (records : List Value)
  | one (record : Value)

namespace Records

/-- The records of a document, which taken `whole` is always one. -/
def ofValue (document : Value) (whole : Bool) : Records :=
  match document, whole with
  | .array items, false => many items
  | v, _ => one v

def toList : Records → List Value
  | many records => records
  | one record => [record]

def toValue : Records → Value
  | many records => .array records
  | one record => record

/-- Changes the records in order, each with its number from 1, up to the first failure. -/
def traverse {m : Type → Type} [Monad m] (change : Nat → Value → m Value) :
    Records → m Records
  | many records => do return many (← records.zipIdx.mapM fun r => change (r.2 + 1) r.1)
  | one record => do return one (← change 1 record)

theorem toValue_ofValue (document : Value) (whole : Bool) :
    (ofValue document whole).toValue = document := by
  cases document <;> cases whole <;> rfl

end Records

end JsonKeys
