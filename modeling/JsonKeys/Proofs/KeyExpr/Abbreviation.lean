import JsonKeys.Proofs.KeyExpr.Dotted
import JsonKeys.Proofs.KeyExpr.Ranges
import Mathlib.Data.List.Forall2

/-!
Spelling out key numbers. Each number token gives way to the keys that it denotes, with a dot before
each so that none is taken for a number again, and the paths stay what they were.
-/
namespace JsonKeys.KeyExpr

/-- What stands in the place of a token once numbers are spelled out. -/
inductive SpelledToken (keys : List String) (token : String) : List String → Prop
  | name (h : isNumberToken token = false) : SpelledToken keys token [token]
  | number {picked : List String} (h : isNumberToken token = true)
      (hpicked : Denotes keys token picked) :
    SpelledToken keys token (picked.map fun key => "." ++ key)

/-- The tokens of the second expression are those of the first with the numbers spelled out. -/
def SpelledOut (keys : List String) (quote : Char) (text other : String) : Prop :=
  ∃ parts, List.Forall₂ (SpelledToken keys) (tokens text quote) parts ∧
    tokens other quote = parts.flatten

/-- Every number in the expression is that of a key. -/
def Listed (keys : List String) (quote : Char) (text : String) : Prop :=
  ∀ token ∈ tokens text quote, isNumberToken token = true → ∃ picked, Denotes keys token picked

theorem tokenListPaths_append (keys before after : List String) :
    tokenListPaths keys (before ++ after) = (do
      let first ← tokenListPaths keys before
      let second ← tokenListPaths keys after
      return first ++ second) := by
  simp only [tokenListPaths, List.mapM_append, bind_assoc, pure_bind, List.flatten_append]

theorem tokenListPaths_cons (keys : List String) (token : String) (tokens : List String) :
    tokenListPaths keys (token :: tokens) = (do
      let first ← tokenPaths keys token
      let second ← tokenListPaths keys tokens
      return first ++ second) := by
  simp only [tokenListPaths, List.mapM_cons, bind_assoc, pure_bind, List.flatten_cons]

/-- What stands in the place of a token has the token's paths. -/
theorem SpelledToken.tokenListPaths_eq {keys part : List String} {token : String}
    (h : SpelledToken keys token part) : tokenListPaths keys part = tokenPaths keys token := by
  cases h with
  | name h => simp [tokenPaths, h, tokenListPaths, pure, Except.pure]
  | number h hpicked =>
    have hpick := (pickKeys?_eq_some_iff h).mpr hpicked
    simp [tokenListPaths_dotted, tokenPaths, h, numberPaths?, hpick]

theorem tokenListPaths_flatten {keys tokens : List String} {parts : List (List String)}
    (h : List.Forall₂ (SpelledToken keys) tokens parts) :
    tokenListPaths keys parts.flatten = tokenListPaths keys tokens := by
  induction h with
  | nil => rfl
  | cons htoken _ ih =>
    rw [List.flatten_cons, tokenListPaths_append, htoken.tokenListPaths_eq, ih, tokenListPaths_cons]

theorem exists_spelledToken {keys : List String} {token : String}
    (h : isNumberToken token = true → ∃ picked, Denotes keys token picked) :
    ∃ part, SpelledToken keys token part := by
  cases hnumber : isNumberToken token with
  | false => exact ⟨[token], .name hnumber⟩
  | true =>
    obtain ⟨picked, hpicked⟩ := h hnumber
    exact ⟨_, .number hnumber hpicked⟩

/-- With a fitting quote every expression can be written without numbers. -/
theorem exists_spelledOut {keys : List String} {quote : Char} (hquote : Quotable quote)
    {text : String} (h : Listed keys quote text) : ∃ other, SpelledOut keys quote text other := by
  have hparts : ∃ parts, List.Forall₂ (SpelledToken keys) (tokens text quote) parts := by
    unfold Listed at h
    generalize tokens text quote = tokens at h ⊢
    induction tokens with
    | nil => exact ⟨[], .nil⟩
    | cons token tokens ih =>
      obtain ⟨htoken, htokens⟩ := List.forall_mem_cons.mp h
      obtain ⟨part, hpart⟩ := exists_spelledToken htoken
      obtain ⟨parts, hparts⟩ := ih htokens
      exact ⟨part :: parts, .cons hpart hparts⟩
  obtain ⟨parts, hparts⟩ := hparts
  exact ⟨ofTokens quote parts.flatten, parts, hparts, tokens_ofTokens hquote _⟩

end JsonKeys.KeyExpr
