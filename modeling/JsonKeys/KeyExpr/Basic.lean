import JsonKeys.KeyExpr.Argument
import JsonKeys.KeyExpr.Numbers
import JsonKeys.KeyExpr.Token
import JsonKeys.Outline.Numbering

/-! Key expressions: lists of key names and key numbers, and the paths they stand for. -/
namespace JsonKeys.KeyExpr

/-- A number token with a number that no key has. -/
structure Unlisted where
  token : String
deriving DecidableEq, Repr

/-- The paths of one token. -/
def tokenPaths (keys : List String) (token : String) : Except Unlisted (List Path) :=
  if isNumberToken token then
    match numberPaths? token keys with
    | some paths => .ok paths
    | none => .error ⟨token⟩
  else .ok [Path.ofText token]

/-- The paths of the tokens, in order. -/
def tokenListPaths (keys : List String) (tokens : List String) : Except Unlisted (List Path) := do
  return (← tokens.mapM (tokenPaths keys)).flatten

/-- Whether an expression has to be looked up in an outline. -/
def usesNumbers (text : String) (quote : Char) : Bool := (tokens text quote).any isNumberToken

/-- The paths of an expression. Only one that uses numbers needs the outline. -/
def paths (text : String) (numbering : Numbering) (quote : Char) (deep : Bool) :
    Except Unlisted (List Path) :=
  tokenListPaths (if usesNumbers text quote then numbering.keys deep else []) (tokens text quote)

/-- Pairs each path of an expression with one value, which is given as text. -/
def pairs (text value : String) (numbering : Numbering) (quote : Char) (deep : Bool) :
    Except Unlisted (List (Path × Value)) := do
  return (← paths text numbering quote deep).map fun path => (path, argumentValue value)

end JsonKeys.KeyExpr
