/-! How keys are read and values are named. -/
namespace JsonKeys

structure Options where
  /-- The character around key names in key expressions. -/
  quote : Char := '"'
  /-- Number the keys of every element of an array, not only of the first with each path. -/
  deep : Bool := false
  /-- Name selected values by their whole path. -/
  fullNames : Bool := false
  /-- Pass over missing keys. -/
  lenient : Bool := false
  /-- Take a root array as one record and not as a sequence of them. -/
  whole : Bool := false
deriving DecidableEq, Repr

end JsonKeys
