import JsonKeys.Proofs.KeyExpr.Quoting

/-!
Expressions in which every token stands between quotes or bare, with any blanks around it. However
the tokens are written, they are read back.
-/
namespace JsonKeys.KeyExpr

/-- A token with its quotes, if it has any, and the blanks before and after it. -/
structure WrittenToken where
  before : List Char
  token : String
  isQuoted : Bool
  after : List Char

namespace WrittenToken

def body (quote : Char) (s : WrittenToken) : List Char :=
  if s.isQuoted then quoted quote s.token.toList else s.token.toList

def chars (quote : Char) (s : WrittenToken) : List Char := s.before ++ s.body quote ++ s.after

/-- There is nothing but blanks around the token, and it has its quotes if it needs them. -/
structure Fits (quote : Char) (s : WrittenToken) : Prop where
  before_blank : ∀ c ∈ s.before, Text.isBlank c
  after_blank : ∀ c ∈ s.after, Text.isBlank c
  bare : s.isQuoted = false → Bare quote s.token.toList

instance (quote : Char) (s : WrittenToken) : Decidable (s.Fits quote) :=
  decidable_of_iff (s.before.all Text.isBlank ∧ s.after.all Text.isBlank ∧
      (s.isQuoted = false → Bare quote s.token.toList))
    ⟨fun ⟨h₁, h₂, h₃⟩ => ⟨List.all_eq_true.mp h₁, List.all_eq_true.mp h₂, h₃⟩,
      fun ⟨h₁, h₂, h₃⟩ => ⟨List.all_eq_true.mpr h₁, List.all_eq_true.mpr h₂, h₃⟩⟩

end WrittenToken

/-- An expression of tokens as they are written one by one. -/
def write (quote : Char) (written : List WrittenToken) : String :=
  ",".intercalate (written.map fun s => String.ofList (s.chars quote))

variable {quote : Char}

theorem ne_of_isBlank {c d : Char} (hc : Text.isBlank c = true) (hd : Text.isBlank d = false) :
    c ≠ d := by
  rintro rfl
  rw [hc] at hd
  cases hd

theorem marks_blank {c : Char} (hc : Text.isBlank c = true) (cs : List Char) :
    marks quote (c :: cs) = ⟨c, false⟩ :: marks quote cs :=
  marks_cons fun heq => absurd heq (ne_of_isBlank hc (by decide))

theorem head?_blanks_append {blanks rest : List Char} (hquote : Quotable quote)
    (h : ∀ c ∈ blanks, Text.isBlank c) (hrest : rest.head? ≠ some quote) :
    (blanks ++ rest).head? ≠ some quote := by
  cases blanks with
  | nil => exact hrest
  | cons c blanks =>
    have hne : c ≠ quote := ne_of_isBlank (h c List.mem_cons_self) hquote.not_blank
    simpa using hne

/-- Blanks in front of a token are passed over. -/
theorem split_blanks {blanks : List Char} (hquote : Quotable quote)
    (h : ∀ c ∈ blanks, Text.isBlank c) (rest : List Char) :
    split quote .blank (marks quote (blanks ++ rest)) = split quote .blank (marks quote rest) := by
  induction blanks with
  | nil => rfl
  | cons c blanks ih =>
    obtain ⟨hc, hblanks⟩ := List.forall_mem_cons.mp h
    have hcomma : c ≠ ',' := ne_of_isBlank hc (by decide)
    have hne : c ≠ quote := ne_of_isBlank hc hquote.not_blank
    rw [List.cons_append, marks_blank hc]
    simp only [split, Bool.false_eq_true, if_false, hcomma, false_and, Draft.take, hne, hc, if_true]
    exact ih hblanks

/-- A blank at the end of a token that is not within quotes is no part of it. -/
theorem Draft.finish_take_blank {draft : Draft} {c : Char} (hclosed : draft.isOpen = false)
    (hc : Text.isBlank c = true) (hne : c ≠ quote) :
    (draft.take quote c).finish = draft.finish ∧ (draft.take quote c).isOpen = false := by
  cases draft with
  | blank => simp [take, hne, hc, isOpen]
  | bare text => simp [take, push, finish, hc, isOpen]
  | quoted text => cases hclosed
  | closed kept tail => simp [take, push, finish, hc, isOpen]

theorem split_blanks_after {blanks : List Char} (hquote : Quotable quote)
    (h : ∀ c ∈ blanks, Text.isBlank c) {draft : Draft} (hclosed : draft.isOpen = false)
    (rest : List Char) :
    ∃ other : Draft, other.finish = draft.finish ∧ other.isOpen = false ∧
      split quote draft (marks quote (blanks ++ rest)) = split quote other (marks quote rest) := by
  induction blanks generalizing draft with
  | nil => exact ⟨draft, rfl, hclosed, rfl⟩
  | cons c blanks ih =>
    obtain ⟨hc, hblanks⟩ := List.forall_mem_cons.mp h
    have hcomma : c ≠ ',' := ne_of_isBlank hc (by decide)
    have hne : c ≠ quote := ne_of_isBlank hc hquote.not_blank
    obtain ⟨hfinish, hopen⟩ := Draft.finish_take_blank hclosed hc hne
    obtain ⟨other, hother, hotherOpen, hsplit⟩ := ih hblanks hopen
    refine ⟨other, hother.trans hfinish, hotherOpen, ?_⟩
    rw [List.cons_append, marks_blank hc, ← hsplit]
    simp only [split, Bool.false_eq_true, if_false, hcomma, false_and]

/-- A token is read whole from what is written for it, if no quote stands right behind. -/
theorem split_written (hquote : Quotable quote) {s : WrittenToken} (h : s.Fits quote)
    {rest : List Char} (hrest : rest.head? ≠ some quote) :
    ∃ draft : Draft, draft.finish = s.token ∧ draft.isOpen = false ∧
      split quote .blank (marks quote (s.chars quote ++ rest)) =
        split quote draft (marks quote rest) := by
  have hafter : (s.after ++ rest).head? ≠ some quote :=
    head?_blanks_append hquote h.after_blank hrest
  have hbody : ∃ draft : Draft, draft.finish = s.token ∧ draft.isOpen = false ∧
      split quote .blank (marks quote (s.body quote ++ (s.after ++ rest))) =
        split quote draft (marks quote (s.after ++ rest)) := by
    cases hs : s.isQuoted with
    | true => simpa [WrittenToken.body, hs] using split_quoted hquote s.token.toList hafter
    | false => simpa [WrittenToken.body, hs] using split_bare (h.bare hs) hafter
  obtain ⟨draft, hfinish, hclosed, hsplit⟩ := hbody
  obtain ⟨other, hother, hotherClosed, hblanks⟩ :=
    split_blanks_after hquote h.after_blank hclosed rest
  refine ⟨other, hother.trans hfinish, hotherClosed, ?_⟩
  rw [WrittenToken.chars, List.append_assoc, List.append_assoc, split_blanks hquote h.before_blank,
    hsplit, hblanks]

theorem toList_write (written : List WrittenToken) :
    (write quote written).toList = [','].intercalate (written.map fun s => s.chars quote) := by
  simp [write, String.toList_intercalate, Function.comp_def]

theorem split_write (hquote : Quotable quote) {written : List WrittenToken} (hne : written ≠ [])
    (h : ∀ s ∈ written, s.Fits quote) :
    split quote .blank (marks quote (write quote written).toList) =
      written.map WrittenToken.token := by
  rw [toList_write]
  induction written with
  | nil => contradiction
  | cons s written ih =>
    obtain ⟨hs, hspellings⟩ := List.forall_mem_cons.mp h
    cases written with
    | nil =>
      have hend : ([] : List Char).head? ≠ some quote := by simp
      obtain ⟨draft, hdraft, -, hsplit⟩ := split_written hquote hs hend
      rw [List.append_nil] at hsplit
      simp [hsplit, marks, split, hdraft]
    | cons next written =>
      have ih := ih (by simp) hspellings
      simp only [List.map_cons, List.intercalate_cons_cons, List.append_assoc] at ih ⊢
      generalize hothers : List.intercalate _ _ = others at ih ⊢
      have hcomma : ([','] ++ others).head? ≠ some quote := by
        simpa using Ne.symm hquote.ne_comma
      obtain ⟨draft, hdraft, hclosed, hsplit⟩ := split_written hquote hs hcomma
      have hmarks : marks quote ([','] ++ others) = ⟨',', false⟩ :: marks quote others :=
        marks_cons fun hc => absurd hc (by decide)
      rw [hsplit, hmarks]
      simp [split, hclosed, hdraft, ih]

/-- Only nothing at all, or a single empty token without quotes, is written with blanks alone. -/
theorem allBlank_write (hquote : Quotable quote) {written : List WrittenToken} (hne : written ≠ [])
    (h : ∀ s ∈ written, s.Fits quote)
    (hone : ∀ s, written = [s] → s.token = "" → s.isQuoted = true) :
    Text.allBlank (write quote written).toList = false := by
  have hmem : ∃ c ∈ (write quote written).toList, Text.isBlank c = false := by
    rw [toList_write]
    match written, hne with
    | [s], _ =>
      have hs : s.Fits quote := h s List.mem_cons_self
      by_cases hquoted : s.isQuoted = true
      · refine ⟨quote, ?_, hquote.not_blank⟩
        simp [WrittenToken.chars, WrittenToken.body, hquoted, quoted]
      · have htoken : s.token.toList ≠ [] := by
          intro hempty
          exact hquoted (hone s rfl (by simpa using hempty))
        obtain ⟨c, cs, hcs⟩ := List.exists_cons_of_ne_nil htoken
        have hbare := hs.bare (by simpa using hquoted)
        refine ⟨c, by simp [WrittenToken.chars, WrittenToken.body, hquoted, hcs], ?_⟩
        exact hbare.head_not_blank c (by simp [hcs])
    | s :: next :: written, _ => exact ⟨',', by simp, by decide⟩
  obtain ⟨c, hc, hblank⟩ := hmem
  rw [Text.allBlank, List.all_eq_false]
  exact ⟨c, hc, by simp [hblank]⟩

theorem tokens_write_of_ne_nil (hquote : Quotable quote) {written : List WrittenToken}
    (hne : written ≠ []) (h : ∀ s ∈ written, s.Fits quote)
    (hone : ∀ s, written = [s] → s.token = "" → s.isQuoted = true) :
    KeyExpr.tokens (write quote written) quote = written.map WrittenToken.token := by
  rw [KeyExpr.tokens, allBlank_write hquote hne h hone, if_neg Bool.false_ne_true,
    split_write hquote hne h]

/-- Tokens are read back from the expression that they make between quotes. -/
theorem tokens_ofTokens (hquote : Quotable quote) (tokens : List String) :
    KeyExpr.tokens (ofTokens quote tokens) quote = tokens := by
  let written : List WrittenToken := tokens.map fun token => ⟨[], token, true, []⟩
  have hwrite : ofTokens quote tokens = write quote written := by
    simp [ofTokens, write, written, WrittenToken.chars, WrittenToken.body, Function.comp_def]
  by_cases hne : written = []
  · obtain rfl : tokens = [] := by simpa [written] using hne
    rfl
  · have hfits : ∀ s ∈ written, s.Fits quote := by
      intro s hs
      obtain ⟨token, -, rfl⟩ := List.mem_map.mp hs
      exact ⟨by simp, by simp, by simp⟩
    have hone : ∀ s, written = [s] → s.token = "" → s.isQuoted = true := by
      intro s hs _
      have hmem : s ∈ written := by simp [hs]
      obtain ⟨token, -, rfl⟩ := List.mem_map.mp hmem
      rfl
    rw [hwrite, tokens_write_of_ne_nil hquote hne hfits hone]
    simp [written, Function.comp_def]

/-- However the tokens are written, with or without quotes and among any blanks, the expression has
these tokens. -/
theorem tokens_write (hquote : Quotable quote) {written : List WrittenToken}
    (h : ∀ s ∈ written, s.Fits quote)
    (hone : ∀ s, written = [s] → s.token = "" → s.isQuoted = true) :
    KeyExpr.tokens (write quote written) quote = written.map WrittenToken.token := by
  by_cases hne : written = []
  · subst hne
    rfl
  · exact tokens_write_of_ne_nil hquote hne h hone

/-- Quotes are needed by the second token only, which has everything that they are there for. -/
theorem tokens_write_mixed :
    let written : List WrittenToken :=
      [⟨[' '], "say 'hi'", false, []⟩, ⟨[], ", 'a\\", true, ['\t', ' ']⟩,
        ⟨[], "", false, [' ']⟩, ⟨[], "say 'hi'", false, []⟩, ⟨[], "b\\", false, [' ']⟩]
    Quotable '\'' ∧ (∀ s ∈ written, s.Fits '\'') ∧
      (∀ s, written = [s] → s.token = "" → s.isQuoted = true) ∧
      write '\'' written = " say 'hi',', \\'a'\\\t , ,say 'hi',b\\ " ∧
      KeyExpr.tokens (write '\'' written) '\'' = ["say 'hi'", ", 'a\\", "", "say 'hi'", "b\\"] := by
  intro written
  have hquote : Quotable '\'' := by decide
  have hfits : ∀ s ∈ written, s.Fits '\'' := by decide +kernel
  have hone : ∀ s, written = [s] → s.token = "" → s.isQuoted = true := by
    intro s hs
    simp [written] at hs
  have htokens := tokens_write hquote hfits hone
  have hwrite : write '\'' written = " say 'hi',', \\'a'\\\t , ,say 'hi',b\\ " := by decide +kernel
  refine ⟨hquote, hfits, hone, hwrite, ?_⟩
  rw [htokens]
  rfl

end JsonKeys.KeyExpr
