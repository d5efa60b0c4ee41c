import JsonKeys.KeyExpr.Basic
import JsonKeys.Proofs.Except
import Mathlib.Data.List.Infix

/-!
Tokens that stand as they are, without quotes, and tokens that have one path each.
-/
namespace JsonKeys.KeyExpr

/-- A token that needs no quotes: no comma ends it, no outer blank is lost, no quote opens and none
is hidden by a backslash. -/
structure Bare (quote : Char) (token : List Char) : Prop where
  comma_notMem : ',' ∉ token
  head_not_blank : ∀ c ∈ token.head?, Text.isBlank c = false
  last_not_blank : ∀ c ∈ token.getLast?, Text.isBlank c = false
  head_ne_quote : token.head? ≠ some quote
  no_escape : ¬['\\', quote] <:+: token

instance (quote : Char) (token : List Char) : Decidable (Bare quote token) :=
  decidable_of_iff (',' ∉ token ∧ (token.head?.all fun c => !Text.isBlank c) ∧
      (token.getLast?.all fun c => !Text.isBlank c) ∧ token.head? ≠ some quote ∧
        ¬['\\', quote] <:+: token)
    (by
      simp only [Option.all_eq_true, Bool.not_eq_true']
      exact ⟨fun ⟨h₁, h₂, h₃, h₄, h₅⟩ => ⟨h₁, h₂, h₃, h₄, h₅⟩,
        fun ⟨h₁, h₂, h₃, h₄, h₅⟩ => ⟨h₁, h₂, h₃, h₄, h₅⟩⟩)

variable {quote : Char}

theorem marks_cons {c : Char} {cs : List Char} (h : c = '\\' → cs.head? ≠ some quote) :
    marks quote (c :: cs) = ⟨c, false⟩ :: marks quote cs := by
  cases cs with
  | nil => rfl
  | cons d cs =>
    have hpair : ¬(c = '\\' ∧ d = quote) := by
      intro hx
      exact h hx.1 (congrArg some hx.2)
    rw [marks, if_neg hpair]

/-- No quote stands behind a backslash that is not hidden, neither in the text nor right after
it. -/
theorem head?_append_ne_of_no_escape {c : Char} {cs rest : List Char}
    (hescape : ¬['\\', quote] <:+: c :: cs) (hrest : rest.head? ≠ some quote) :
    c = '\\' → (cs ++ rest).head? ≠ some quote := by
  rintro rfl
  cases cs with
  | nil => exact hrest
  | cons d cs =>
    intro hd
    obtain rfl := Option.some.inj hd
    exact hescape ⟨[], cs, rfl⟩

/-- Once a token has begun without a quote, everything up to a comma is taken as it stands. -/
theorem split_begun {cs rest : List Char} (hcomma : ',' ∉ cs) (hescape : ¬['\\', quote] <:+: cs)
    (hrest : rest.head? ≠ some quote) (text : List Char) :
    split quote (.bare text) (marks quote (cs ++ rest)) =
      split quote (.bare (cs.reverse ++ text)) (marks quote rest) := by
  induction cs generalizing text with
  | nil => rfl
  | cons c cs ih =>
    have hc : c ≠ ',' := fun heq => hcomma (heq ▸ List.mem_cons_self)
    have hcs : ',' ∉ cs := fun hmem => hcomma (List.mem_cons_of_mem _ hmem)
    have htail : ¬['\\', quote] <:+: cs := fun hinfix => hescape (List.infix_cons hinfix)
    rw [List.cons_append, marks_cons (head?_append_ne_of_no_escape hescape hrest)]
    simp only [split, Bool.false_eq_true, if_false, hc, false_and, Draft.take, Draft.push]
    rw [ih hcs htail]
    simp

/-- A token without quotes is read whole, if no quote stands right behind it. -/
theorem split_bare {token rest : List Char} (h : Bare quote token)
    (hrest : rest.head? ≠ some quote) :
    ∃ draft : Draft, draft.finish = String.ofList token ∧ draft.isOpen = false ∧
      split quote .blank (marks quote (token ++ rest)) = split quote draft (marks quote rest) := by
  cases token with
  | nil => exact ⟨.blank, rfl, rfl, rfl⟩
  | cons c cs =>
    have hblank : Text.isBlank c = false := h.head_not_blank c rfl
    have hne : c ≠ quote := fun heq => h.head_ne_quote (congrArg some heq)
    have hcomma : c ≠ ',' := fun heq => h.comma_notMem (heq ▸ List.mem_cons_self)
    -- the first character begins the token and is taken as if it had begun before
    have hbegun : split quote .blank (marks quote (c :: cs ++ rest)) =
        split quote (.bare []) (marks quote (c :: cs ++ rest)) := by
      rw [List.cons_append, marks_cons (head?_append_ne_of_no_escape h.no_escape hrest)]
      simp [split, hcomma, Draft.take, hne, hblank, Draft.push]
    refine ⟨.bare ((c :: cs).reverse ++ []), ?_, rfl, ?_⟩
    · -- the last character is not blank, so that nothing is trimmed
      obtain ⟨d, ds, hds⟩ := List.exists_cons_of_ne_nil (l := (c :: cs).reverse) (by simp)
      have hlast : Text.isBlank d = false := by
        apply h.last_not_blank
        simp [List.getLast?_eq_head?_reverse, hds]
      have htrim : ((c :: cs).reverse).dropWhile Text.isBlank = (c :: cs).reverse := by
        simp [hds, hlast]
      rw [List.append_nil, Draft.finish, htrim, List.reverse_reverse]
    · rw [hbegun, split_begun h.comma_notMem h.no_escape hrest]

theorem tokens_of_bare {text : String} (hne : text ≠ "") (h : Bare quote text.toList) :
    tokens text quote = [text] := by
  obtain ⟨c, cs, hcs⟩ := List.exists_cons_of_ne_nil (by simpa using hne : text.toList ≠ [])
  have hc : Text.isBlank c = false := h.head_not_blank c (by simp [hcs])
  have hblank : Text.allBlank text.toList = false := by simp [Text.allBlank, hcs, hc]
  have hend : ([] : List Char).head? ≠ some quote := by simp
  obtain ⟨draft, hdraft, -, hsplit⟩ := split_bare h hend
  rw [List.append_nil] at hsplit
  rw [tokens, hblank, if_neg Bool.false_ne_true, hsplit]
  simp [marks, split, hdraft]

theorem isBlank_of_isDigit {c : Char} (h : c.isDigit) : Text.isBlank c = false := by
  obtain ⟨hlo, hhi⟩ := Char.isDigit_iff_toNat.mp h
  have hlo : 48 ≤ c.toNat := hlo
  have hhi : c.toNat ≤ 57 := hhi
  rw [Text.isBlank, Text.inRanges, List.any_eq_false]
  intro r hr
  have hrange : r.2 < 48 ∨ 57 < r.1 := by
    revert r
    decide
  simp only [Bool.and_eq_true, decide_eq_true_eq]
  omega

theorem bare_of_isDigit {cs : List Char} (hquote : quote.isDigit = false)
    (h : ∀ c ∈ cs, c.isDigit) :
    Bare quote cs := by
  have hdigit : ∀ {d : Char}, d.isDigit = false → d ∉ cs := by
    intro d hd hmem
    rw [h d hmem] at hd
    cases hd
  constructor
  · exact hdigit (by decide)
  · exact fun c hc => isBlank_of_isDigit (h c (List.mem_of_mem_head? hc))
  · exact fun c hc => isBlank_of_isDigit (h c (List.mem_of_getLast? hc))
  · exact fun hhead => hdigit hquote (List.mem_of_mem_head? hhead)
  · intro hinfix
    have hmem : '\\' ∈ cs := hinfix.subset List.mem_cons_self
    exact hdigit (by decide) hmem

theorem tokenListPaths_of_singletons {keys : List String} {α : Type} {token : α → String}
    {path : α → Path} {as : List α} (h : ∀ a ∈ as, tokenPaths keys (token a) = .ok [path a]) :
    tokenListPaths keys (as.map token) = .ok (as.map path) := by
  have htokens : (as.map token).mapM (tokenPaths keys) = .ok (as.map fun a => [path a]) := by
    rw [List.mapM_map]
    exact mapM_eq_ok h
  rw [tokenListPaths, htokens, ok_bind, ← List.flatMap_def, ← List.map_eq_flatMap]
  rfl

theorem tokenListPaths_of_names {keys tokens : List String}
    (h : ∀ token ∈ tokens, isNumberToken token = false) :
    tokenListPaths keys tokens = .ok (tokens.map Path.ofText) := by
  have hone : ∀ token ∈ tokens, tokenPaths keys (id token) = .ok [Path.ofText token] := by
    intro token htoken
    simp [tokenPaths, h token htoken]
  simpa using tokenListPaths_of_singletons hone

/-- The paths of an expression whose key numbers are those of the given keys. -/
def listedPaths (keys : List String) (quote : Char) (text : String) : Except Unlisted (List Path) :=
  tokenListPaths keys (tokens text quote)

/-- Keys that no token asks for make no difference. -/
theorem paths_eq_listedPaths (text : String) (numbering : Numbering) (quote : Char) (deep : Bool) :
    paths text numbering quote deep = listedPaths (numbering.keys deep) quote text := by
  unfold paths listedPaths
  by_cases h : usesNumbers text quote
  · rw [if_pos h]
  · have hnames : ∀ token ∈ tokens text quote, isNumberToken token = false := by
      simpa [usesNumbers] using h
    rw [if_neg h, tokenListPaths_of_names hnames, tokenListPaths_of_names hnames]

end JsonKeys.KeyExpr
