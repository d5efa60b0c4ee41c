import JsonKeys.Proofs.KeyExpr.Token
import Mathlib.Data.List.DropRight

/-!
Tokens written between quotes. A backslash stands before every quote inside, and the backslashes at
the end of a token behind the closing quote, which they would hide otherwise. What is written so is
read as the token.
-/
namespace JsonKeys.KeyExpr

/-- The characters that quotes can be: no comma, no backslash and no blank. -/
structure Quotable (quote : Char) : Prop where
  ne_comma : quote ≠ ','
  ne_backslash : quote ≠ '\\'
  not_blank : Text.isBlank quote = false

instance (quote : Char) : Decidable (Quotable quote) :=
  decidable_of_iff (quote ≠ ',' ∧ quote ≠ '\\' ∧ Text.isBlank quote = false)
    ⟨fun ⟨h₁, h₂, h₃⟩ => ⟨h₁, h₂, h₃⟩, fun ⟨h₁, h₂, h₃⟩ => ⟨h₁, h₂, h₃⟩⟩

/-- Puts a backslash before every quote. -/
def escapeQuotes (quote : Char) : List Char → List Char
  | [] => []
  | c :: cs =>
    if c = quote then '\\' :: quote :: escapeQuotes quote cs else c :: escapeQuotes quote cs

/-- A token between quotes. -/
def quoted (quote : Char) (token : List Char) : List Char :=
  quote :: (escapeQuotes quote (token.rdropWhile (· = '\\')) ++
    quote :: token.rtakeWhile (· = '\\'))

/-- An expression of the tokens, each between quotes. -/
def ofTokens (quote : Char) (tokens : List String) : String :=
  ",".intercalate (tokens.map fun token => String.ofList (quoted quote token.toList))

theorem marks_escaped (quote : Char) (cs : List Char) :
    marks quote ('\\' :: quote :: cs) = ⟨quote, true⟩ :: marks quote cs := by
  rw [marks, if_pos ⟨rfl, rfl⟩]

theorem head?_escapeQuotes_append {quote : Char} (hquote : quote ≠ '\\') {cs rest : List Char}
    (h : cs ≠ []) : (escapeQuotes quote cs ++ rest).head? ≠ some quote := by
  obtain ⟨c, cs, rfl⟩ := List.exists_cons_of_ne_nil h
  by_cases hc : c = quote
  · simp [escapeQuotes, hc, Ne.symm hquote]
  · simp [escapeQuotes, hc]

variable {quote : Char}

/-- Between quotes everything is taken as it stands, commas and blanks too, up to a quote that no
backslash hides. -/
theorem split_escapeQuotes (hquote : Quotable quote) {cs : List Char} (h : cs.getLast? ≠ some '\\')
    (text rest : List Char) :
    split quote (.quoted text) (marks quote (escapeQuotes quote cs ++ quote :: rest)) =
      split quote (.closed (cs.reverse ++ text) []) (marks quote rest) := by
  induction cs generalizing text with
  | nil =>
    have hclose : marks quote (quote :: rest) = ⟨quote, false⟩ :: marks quote rest :=
      marks_cons fun hc => absurd hc hquote.ne_backslash
    simp [escapeQuotes, hclose, split, Draft.isOpen, Draft.take]
  | cons c cs ih =>
    have hlast : cs.getLast? ≠ some '\\' := by
      intro hl
      apply h
      simp [List.getLast?_cons, hl]
    by_cases hc : c = quote
    · simp only [escapeQuotes, if_pos hc, List.cons_append, marks_escaped, split, if_true,
        Draft.push]
      rw [ih hlast, hc]
      simp
    · have hnext : c = '\\' → (escapeQuotes quote cs ++ quote :: rest).head? ≠ some quote := by
        intro he
        apply head?_escapeQuotes_append hquote.ne_backslash
        intro hnil
        exact h (by rw [he, hnil]; rfl)
      simp only [escapeQuotes, if_neg hc, List.cons_append, marks_cons hnext, split,
        Bool.false_eq_true, if_false, Draft.isOpen, Bool.not_true, and_false, Draft.take]
      rw [ih hlast]
      simp

/-- Backslashes behind the closing quote belong to the token. -/
theorem split_backslashes {slashes rest : List Char} (h : ∀ c ∈ slashes, c = '\\')
    (hrest : rest.head? ≠ some quote) (hquote : quote ≠ '\\') (kept tail : List Char) :
    split quote (.closed kept tail) (marks quote (slashes ++ rest)) =
      split quote (.closed kept (slashes.reverse ++ tail)) (marks quote rest) := by
  induction slashes generalizing tail with
  | nil => rfl
  | cons c slashes ih =>
    obtain ⟨rfl, hslashes⟩ := List.forall_mem_cons.mp h
    have hnext : (slashes ++ rest).head? ≠ some quote := by
      cases slashes with
      | nil => exact hrest
      | cons d slashes =>
        rw [hslashes d List.mem_cons_self]
        simp [Ne.symm hquote]
    have hcomma : '\\' ≠ ',' := by decide
    rw [List.cons_append, marks_cons fun _ => hnext]
    simp only [split, Bool.false_eq_true, if_false, hcomma, false_and, Draft.take, Draft.push]
    rw [ih hslashes]
    simp

theorem getLast?_rdropWhile_ne (token : List Char) :
    (token.rdropWhile (· = '\\')).getLast? ≠ some '\\' := by
  intro h
  have hne : token.rdropWhile (· = '\\') ≠ [] := by
    intro he
    simp [he] at h
  apply List.rdropWhile_last_not _ _ hne
  rw [List.getLast?_eq_some_getLast hne] at h
  simpa using h

/-- A token between quotes is read whole, if no quote stands right behind it. -/
theorem split_quoted (hquote : Quotable quote) (token : List Char) {rest : List Char}
    (hrest : rest.head? ≠ some quote) :
    ∃ draft : Draft, draft.finish = String.ofList token ∧ draft.isOpen = false ∧
      split quote .blank (marks quote (quoted quote token ++ rest)) =
        split quote draft (marks quote rest) := by
  have hslash : ∀ c ∈ token.rtakeWhile (· = '\\'), c = '\\' := by
    intro c hc
    simpa using List.mem_rtakeWhile_imp hc
  refine ⟨.closed (token.rdropWhile (· = '\\')).reverse
    (token.rtakeWhile (· = '\\')).reverse, ?_, rfl, ?_⟩
  · -- a backslash is not blank, so that none is trimmed
    have hkept : (token.rtakeWhile (· = '\\')).reverse.dropWhile Text.isBlank =
        (token.rtakeWhile (· = '\\')).reverse := by
      rw [List.dropWhile_eq_self_iff]
      intro hpos
      rw [hslash _ (List.mem_reverse.mp (List.getElem_mem hpos))]
      decide
    rw [Draft.finish, hkept, List.reverse_reverse, List.reverse_reverse,
      List.rdropWhile_append_rtakeWhile]
  · have hopen : ∀ cs, marks quote (quote :: cs) = ⟨quote, false⟩ :: marks quote cs := fun cs =>
      marks_cons fun hc => absurd hc hquote.ne_backslash
    rw [quoted, List.cons_append, hopen]
    simp only [split, Bool.false_eq_true, if_false, hquote.ne_comma, false_and, Draft.take, if_true]
    rw [List.append_assoc, List.cons_append,
      split_escapeQuotes hquote (getLast?_rdropWhile_ne token), List.append_nil,
      split_backslashes hslash hrest hquote.ne_backslash, List.append_nil]

end JsonKeys.KeyExpr
