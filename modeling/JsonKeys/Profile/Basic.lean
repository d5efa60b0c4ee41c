import JsonKeys.Outline.Walk
import JsonKeys.Profile.Summary

/-! The profile of a document: for every path in it, the kinds of value found there. -/
namespace JsonKeys

/-- What is found under one path, by kind. -/
structure Profile where
  path : String
  kinds : List Summary
deriving DecidableEq

namespace Profile

def text (profile : Profile) : String := " | ".intercalate (profile.kinds.map Summary.line)

/-- Takes the value of a node into the profile of its path. The profiles stay sorted by path, and a
path that is new gets one of its own. -/
def observe : List Profile → Node → List Profile
  | [], node => [⟨node.path, Summary.extendAll [] node.value⟩]
  | p :: ps, node =>
    if node.path < p.path then ⟨node.path, Summary.extendAll [] node.value⟩ :: p :: ps
    else if node.path = p.path then ⟨p.path, Summary.extendAll p.kinds node.value⟩ :: ps
    else p :: observe ps node

/-- Every path of a document with a summary of all the values under it, which are taken in as a deep
walk meets them. A root array is itself a wildcard; a scalar has no paths. -/
def ofDocument (document : Value) : List Profile :=
  ((visits true (wildcardRoots document) []).filter (·.path ≠ "")).foldl observe []

end Profile

end JsonKeys
