import JsonKeys.Proofs.KeyExpr.Abbreviation
import JsonKeys.Proofs.Query.Records
import JsonKeys.Proofs.Query.Resolution
import Mathlib.Data.List.Permutation

/-!
Key numbers in the edits of a query are short for keys of the document as it is before any edit. A
query that gives the keys in their place has the same answer.
-/
namespace JsonKeys

open KeyExpr (listedPaths listedPaths? listedPairs)

namespace KeyExpr

variable {keys : List String} {quote : Char}

theorem SpelledOut.listedPaths_eq {text other : String} (h : SpelledOut keys quote text other) :
    listedPaths keys quote other = listedPaths keys quote text := by
  obtain ⟨parts, hparts, hother⟩ := h
  rw [listedPaths, hother, tokenListPaths_flatten hparts, listedPaths]

theorem listedPaths?_of_spelledOut {text other : Option String}
    (h : Option.Rel (SpelledOut keys quote) text other) :
    listedPaths? keys quote other = listedPaths? keys quote text := by
  cases h with
  | none => rfl
  | some h => rw [listedPaths?, h.listedPaths_eq, listedPaths?]

theorem listedPairs_of_spelledOut {pairs others : List (String × String)}
    (h : List.Forall₂ (fun pair other => SpelledOut keys quote pair.1 other.1 ∧ other.2 = pair.2)
      pairs others) : listedPairs keys quote others = listedPairs keys quote pairs := by
  unfold listedPairs
  congr 1
  induction h with
  | nil => rfl
  | cons hpair _ ih => rw [List.mapM_cons, List.mapM_cons, ih, hpair.1.listedPaths_eq, hpair.2]

end KeyExpr

namespace Query

/-- The second query differs from the first in its edits alone, and there in nothing but that key
numbers are spelled out. -/
structure SpelledOut (query : Query) (keys : List String) (quote : Char)
    (other : Query) : Prop where
  get : Option.Rel (KeyExpr.SpelledOut keys quote) query.get other.get
  defaults : List.Forall₂ (fun pair other => KeyExpr.SpelledOut keys quote pair.1 other.1 ∧
    other.2 = pair.2) query.defaults other.defaults
  set : List.Forall₂ (fun pair other => KeyExpr.SpelledOut keys quote pair.1 other.1 ∧
    other.2 = pair.2) query.set other.set
  del : Option.Rel (KeyExpr.SpelledOut keys quote) query.del other.del

/-- Every key number in the edits is that of a key. -/
def Listed (query : Query) (keys : List String) (quote : Char) : Prop :=
  ∀ text ∈ query.keyTexts, KeyExpr.Listed keys quote text

namespace SpelledOut

variable {query other : Query} {keys : List String} {quote : Char}

theorem listedEdits_eq (h : query.SpelledOut keys quote other) :
    other.listedEdits keys quote = query.listedEdits keys quote := by
  unfold listedEdits
  rw [KeyExpr.listedPaths?_of_spelledOut h.get, KeyExpr.listedPairs_of_spelledOut h.defaults,
    KeyExpr.listedPairs_of_spelledOut h.set, KeyExpr.listedPaths?_of_spelledOut h.del]

theorem editsRecords_eq (h : query.SpelledOut keys quote other) :
    other.editsRecords = query.editsRecords := by
  have hoption : ∀ {a b : Option String}, Option.Rel (KeyExpr.SpelledOut keys quote) a b →
      b.isSome = a.isSome := by
    intro a b hab
    cases hab <;> rfl
  have hlist : ∀ {as bs : List (String × String)},
      List.Forall₂ (fun pair other => KeyExpr.SpelledOut keys quote pair.1 other.1 ∧
        other.2 = pair.2) as bs → bs.isEmpty = as.isEmpty := by
    intro as bs hab
    cases hab <;> rfl
  unfold editsRecords
  rw [hoption h.get, hlist h.defaults, hlist h.set, hoption h.del]

end SpelledOut

/-- Edits are the same if their key numbers are spelled out by the outline of their document. -/
theorem answerFrom_of_spelledOut {query other : Query} {options : Options} {root : Value}
    (hform : other.form = query.form)
    (h : query.SpelledOut (outline root options.deep) options.quote other) :
    other.answerFrom options root = query.answerFrom options root := by
  have hedit : (other.edit root options).result = (query.edit root options).result := by
    rw [result_edit_eq, result_edit_eq, result_resolve_eq, result_resolve_eq, h.listedEdits_eq]
  rw [answerFrom, answerFrom, hedit, h.editsRecords_eq, hform]

/-- If all key numbers in the edits are those of keys, the query has the answer of every query that
has these keys in their place, each behind a dot; and with a fitting quote every expression can be
so written. The keys are those of the new root before any edit. -/
theorem answer_spelled_out {query : Query} {document : Value} {options : Options}
    (hlisted : ∀ root, (query.rooted document options).result = .ok root →
      query.Listed (outline root options.deep) options.quote) :
    (∀ other : Query, other.root = query.root → other.form = query.form →
      (∀ root, (query.rooted document options).result = .ok root →
        query.SpelledOut (outline root options.deep) options.quote other) →
      (other.answer document options).result = (query.answer document options).result) ∧
    (KeyExpr.Quotable options.quote → ∀ root, (query.rooted document options).result = .ok root →
      ∀ text ∈ query.keyTexts, ∃ other,
        KeyExpr.SpelledOut (outline root options.deep) options.quote text other) := by
  constructor
  · intro other hroot hform hspelled
    have hrooted : other.rooted document options = query.rooted document options := by
      unfold rooted
      rw [hroot]
    rw [result_answer_eq, result_answer_eq, hrooted]
    cases hresult : (query.rooted document options).result with
    | error failure => rfl
    | ok root => exact answerFrom_of_spelledOut hform (hspelled root hresult)
  · intro hquote root hresult text htext
    exact KeyExpr.exists_spelledOut hquote (hlisted root hresult text htext)

/-- All keys are set, and of them only the first deleted: a range that runs backwards has no
keys. -/
def numbered : Query where
  set := [("-", "true")]
  del := some "2-1, 1"

def named : Query where
  set := [(".a, .b", "true")]
  del := some ".a"

def twoMembers : Value := .object [("b", .null), ("a", .null)]

theorem outline_twoMembers : outline twoMembers false = ["a", "b"] := by cbv

theorem answer_spelled_out_backwards :
    (∀ root, (numbered.rooted twoMembers {}).result = .ok root →
      numbered.Listed (outline root false) '"') ∧
    (∀ root, (numbered.rooted twoMembers {}).result = .ok root →
      numbered.SpelledOut (outline root false) '"' named) ∧
    (named.answer twoMembers {}).result = (numbered.answer twoMembers {}).result ∧
    ∀ text ∈ numbered.keyTexts, ∃ other, KeyExpr.SpelledOut ["a", "b"] '"' text other := by
  have hall : KeyExpr.Denotes ["a", "b"] "-" ["a", "b"] :=
    (KeyExpr.pickKeys?_eq_some_iff (by decide)).mp (by decide)
  have hnone : KeyExpr.Denotes ["a", "b"] "2-1" [] :=
    (KeyExpr.pickKeys?_eq_some_iff (by decide)).mp (by decide)
  have hfirst : KeyExpr.Denotes ["a", "b"] "1" ["a"] :=
    (KeyExpr.pickKeys?_eq_some_iff (by decide)).mp (by decide)
  have hset : KeyExpr.tokens "-" '"' = ["-"] := by decide
  have hdel : KeyExpr.tokens "2-1, 1" '"' = ["2-1", "1"] := by decide
  have hlisted : ∀ root, (numbered.rooted twoMembers {}).result = .ok root →
      numbered.Listed (outline root false) '"' := by
    intro root hroot
    obtain rfl := Except.ok.inj hroot
    rw [outline_twoMembers]
    simp only [Listed, KeyExpr.Listed, keyTexts, numbered]
    simp only [Option.toList, List.map_cons, List.map_nil, List.nil_append, List.cons_append,
      List.forall_mem_cons, hset, hdel, List.not_mem_nil, false_implies, implies_true, and_true]
    exact ⟨fun _ => ⟨_, hall⟩, fun _ => ⟨_, hnone⟩, fun _ => ⟨_, hfirst⟩⟩
  have hspelled : ∀ root, (numbered.rooted twoMembers {}).result = .ok root →
      numbered.SpelledOut (outline root false) '"' named := by
    intro root hroot
    obtain rfl := Except.ok.inj hroot
    rw [outline_twoMembers]
    refine ⟨.none, .nil, .cons ⟨⟨[[".a", ".b"]], ?_, by decide⟩, rfl⟩ .nil,
      .some ⟨[[], [".a"]], ?_, by decide⟩⟩
    · exact hset ▸ .cons (.number (by decide) hall) .nil
    · exact hdel ▸ .cons (.number (by decide) hnone) (.cons (.number (by decide) hfirst) .nil)
  obtain ⟨hsame, hexists⟩ := answer_spelled_out hlisted
  have hquote : KeyExpr.Quotable '"' := by decide
  exact ⟨hlisted, hspelled, hsame named rfl rfl hspelled,
    outline_twoMembers ▸ hexists hquote twoMembers rfl⟩

end Query

end JsonKeys
