import JsonKeys.Query.Answer
import JsonKeys.Proofs.KeyExpr.Token

/-!
What the key expressions of a query stand for. They are all looked up in one list of keys, the
outline of the document as it was before any edit, and a number that no key has is all that can be
wrong.
-/
namespace JsonKeys

namespace KeyExpr

/-- The paths of the expressions, each with the value of its expression. -/
def listedPairs (keys : List String) (quote : Char) (pairs : List (String × String)) :
    Except Unlisted (List (Path × Value)) := do
  let found ← pairs.mapM fun pair => do
    let paths ← listedPaths keys quote pair.1
    return paths.map fun path => (path, argumentValue pair.2)
  return found.flatten

/-- The paths of an expression that may be left out. -/
def listedPaths? (keys : List String) (quote : Char) :
    Option String → Except Unlisted (Option (List Path))
  | some text => do return some (← listedPaths keys quote text)
  | none => return none

end KeyExpr

open KeyExpr (listedPaths listedPaths? listedPairs)

/-- A number that no key has, as a failure. -/
def Failure.ofUnlisted (unlisted : KeyExpr.Unlisted) : Failure := .unlisted unlisted.token

namespace Query

variable (options : Options)

/-- The edits of a query whose key numbers are those of the given keys. -/
def listedEdits (query : Query) (keys : List String) (quote : Char) :
    Except KeyExpr.Unlisted Edits := do
  let get ← listedPaths? keys quote query.get
  let defaults ← listedPairs keys quote query.defaults
  let set ← listedPairs keys quote query.set
  let del ← listedPaths? keys quote query.del
  return ⟨get, defaults, set, del⟩

theorem result_keyPaths (text : String) (numbering : Numbering) :
    (keyPaths text numbering options).result =
      (listedPaths (numbering.keys options.deep) options.quote text).mapError .ofUnlisted := by
  have hpaths := KeyExpr.paths_eq_listedPaths text numbering options.quote options.deep
  simp only [keyPaths, hpaths]
  cases numbering with
  | given keys => cases listedPaths _ options.quote text <;> rfl
  | ofDocument v =>
    cases KeyExpr.usesNumbers text options.quote <;>
      cases listedPaths _ options.quote text <;> rfl

theorem result_keyPaths? (text : Option String) (numbering : Numbering) :
    (keyPaths? text numbering options).result =
      (listedPaths? (numbering.keys options.deep) options.quote text).mapError .ofUnlisted := by
  cases text with
  | none => rfl
  | some text =>
    simp only [keyPaths?, listedPaths?, Logged.result_bind, Logged.result_pure, result_keyPaths,
      mapError_bind]
    rfl

theorem result_keyPairs (pairs : List (String × String)) (numbering : Numbering) :
    (keyPairs pairs numbering options).result =
      (listedPairs (numbering.keys options.deep) options.quote pairs).mapError .ofUnlisted := by
  simp only [keyPairs, listedPairs, Logged.result_bind, Logged.result_mapM, Logged.result_pure,
    result_keyPaths, mapError_bind, ← mapM_mapError]
  rfl

/-- The key expressions of all the edits are looked up in the outline of the whole document. -/
theorem result_resolve_eq (query : Query) (document : Value) :
    (query.resolve document options).result =
      (query.listedEdits (outline document options.deep) options.quote).mapError .ofUnlisted := by
  simp only [resolve, listedEdits, Logged.result_bind, Logged.result_pure, result_noteOutline,
    ok_bind, result_keyPaths?, result_keyPairs, Numbering.keys, mapError_bind]
  rfl

theorem exists_unlisted_of_resolve {query : Query} {document : Value} {failure : Failure}
    (h : (query.resolve document options).result = .error failure) :
    ∃ token, failure = .unlisted token := by
  rw [result_resolve_eq, mapError_eq_error_iff] at h
  obtain ⟨unlisted, -, rfl⟩ := h
  exact ⟨unlisted.token, rfl⟩

/-- The document that the edits begin with: the whole one, or what is at the root asked for. -/
def rooted (query : Query) (document : Value) (options : Options) : Logged Value :=
  match query.root with
  | some text => enterRoot document text options
  | none => pure document

/-- What is answered once there is a root. -/
def answerFrom (query : Query) (options : Options) (root : Value) : Except Failure Answer :=
  (if query.editsRecords then (query.edit root options).result else .ok root) >>= fun document =>
    (present document query.form options).result

theorem result_answer_eq (query : Query) (document : Value) :
    (query.answer document options).result =
      (query.rooted document options).result >>= query.answerFrom options := by
  have hfrom : query.answerFrom options = fun root =>
      ((if query.editsRecords then query.edit root options else pure root) >>= fun document =>
        present document query.form options).result := by
    funext root
    rw [Logged.result_bind, answerFrom]
    split <;> rfl
  rw [hfrom, ← Logged.result_bind]
  unfold answer rooted
  cases query.root <;> cases query.editsRecords <;> rfl

theorem result_edit_eq (query : Query) (root : Value) :
    (query.edit root options).result = (do
      let edits ← (query.resolve root options).result
      let edited ← (Records.ofValue root options.whole).traverse (edits.apply options)
      return edited.toValue) := by
  simp only [edit, Logged.result_bind, Logged.result_pure, Logged.result_lift, Logged.result_note,
    ok_bind]
  rfl

end Query

end JsonKeys
