import JsonKeys.Proofs.KeyExpr.Ranges
import JsonKeys.Proofs.KeyExpr.Token

/-!
What an expression stands for: the paths of its tokens, in order. A token of digits, dashes and
colons stands for the keys that the grammar of key numbers gives it, or else is what is wrong with
the expression; any other token is a path.
-/
namespace JsonKeys.KeyExpr

/-- Digits, dashes and colons, and at least one of them. -/
def NumberShaped (token : String) : Prop := token ≠ "" ∧ ∀ c ∈ token.toList, c.isDigit ∨ IsMark c

instance (token : String) : Decidable (NumberShaped token) :=
  decidable_of_iff (token ≠ "" ∧ token.toList.all fun c => c.isDigit ∨ IsMark c)
    (by simp [NumberShaped])

/-- The paths of the keys from one number to another, in order. -/
def pathsBetween (keys : List String) (first last : Nat) : List Path :=
  ((keys.take last).drop (first - 1)).map Path.ofText

/-- `TokenMeans keys token paths`: among the keys the token stands for the paths. -/
inductive TokenMeans (keys : List String) (token : String) : List Path → Prop
  | name (h : ¬NumberShaped token) : TokenMeans keys token [Path.ofText token]
  | number {first last : Nat} (h : NumberShaped token)
      (hrange : Ranges keys.length token.toList first last) :
    TokenMeans keys token (pathsBetween keys first last)

/-- The token has the shape of a number, but is neither one of a key nor a range of them. -/
def Stray (keys : List String) (token : String) : Prop :=
  NumberShaped token ∧ ¬∃ first last, Ranges keys.length token.toList first last

theorem isNumberToken_eq_false_iff {token : String} :
    isNumberToken token = false ↔ ¬NumberShaped token := by
  rw [← Bool.not_eq_true, isNumberToken_iff]
  rfl

theorem numberPaths?_eq_some_iff {keys : List String} {token : String} (h : NumberShaped token)
    {paths : List Path} : numberPaths? token keys = some paths ↔
      ∃ first last, Ranges keys.length token.toList first last ∧
        paths = pathsBetween keys first last := by
  simp only [numberPaths?, Option.map_eq_some_iff, pickKeys?_eq_some_iff (isNumberToken_iff.mpr h)]
  constructor
  · rintro ⟨picked, ⟨first, last, hrange, rfl⟩, rfl⟩
    exact ⟨first, last, hrange, rfl⟩
  · rintro ⟨first, last, hrange, rfl⟩
    exact ⟨_, ⟨first, last, hrange, rfl⟩, rfl⟩

theorem tokenPaths_number_eq_ok_iff {keys : List String} {token : String} (h : NumberShaped token)
    {paths : List Path} : tokenPaths keys token = .ok paths ↔
      ∃ first last, Ranges keys.length token.toList first last ∧
        paths = pathsBetween keys first last := by
  rw [← numberPaths?_eq_some_iff h, tokenPaths, if_pos (isNumberToken_iff.mpr h)]
  cases numberPaths? token keys <;> simp

theorem tokenPaths_eq_ok_iff {keys : List String} {token : String} {paths : List Path} :
    tokenPaths keys token = .ok paths ↔ TokenMeans keys token paths := by
  by_cases h : NumberShaped token
  · rw [tokenPaths_number_eq_ok_iff h]
    constructor
    · rintro ⟨first, last, hrange, rfl⟩
      exact .number h hrange
    · intro hmeans
      cases hmeans with
      | name hname => exact absurd h hname
      | number _ hrange => exact ⟨_, _, hrange, rfl⟩
  · rw [tokenPaths, isNumberToken_eq_false_iff.mpr h, if_neg Bool.false_ne_true, Except.ok.injEq]
    constructor
    · rintro rfl
      exact .name h
    · intro hmeans
      cases hmeans with
      | name _ => rfl
      | number hnumber _ => exact absurd hnumber h

theorem tokenPaths_eq_error_iff {keys : List String} {token : String} {unlisted : Unlisted} :
    tokenPaths keys token = .error unlisted ↔ unlisted = ⟨token⟩ ∧ Stray keys token := by
  by_cases h : NumberShaped token
  · have hstray : Stray keys token ↔ numberPaths? token keys = none := by
      simp only [Stray, h, true_and, Option.eq_none_iff_forall_ne_some, ne_eq,
        numberPaths?_eq_some_iff h]
      constructor
      · rintro hnone paths ⟨first, last, hrange, -⟩
        exact hnone ⟨first, last, hrange⟩
      · rintro hnone ⟨first, last, hrange⟩
        exact hnone _ ⟨first, last, hrange, rfl⟩
    rw [hstray, tokenPaths, if_pos (isNumberToken_iff.mpr h)]
    cases numberPaths? token keys <;> simp [eq_comm]
  · rw [tokenPaths, isNumberToken_eq_false_iff.mpr h, if_neg Bool.false_ne_true]
    simp [Stray, h]

theorem RangeEnd.le {count default n : Nat} {cs : List Char} (h : RangeEnd count default cs n) :
    n = default ∨ n ≤ count := by
  cases h with
  | absent => exact .inl rfl
  | number h => exact .inr h.2.2

/-- Neither end of a range lies outside the keys. -/
theorem Ranges.bounds {count first last : Nat} {token : List Char}
    (h : Ranges count token first last) :
    first - 1 ≤ count ∧ last ≤ count := by
  cases h with
  | number h => exact ⟨by have := h.2.2; omega, h.2.2⟩
  | range _ _ hfirst hlast =>
    constructor
    · rcases hfirst.le with rfl | hle
      · exact Nat.zero_le _
      · omega
    · rcases hlast.le with rfl | hle
      · exact Nat.le_refl _
      · exact hle

/-- A range never reaches past the keys. -/
theorem bounds_of_pickRange? {count : Nat} {token : String} (h : NumberShaped token)
    {range : KeyRange} (hrange : pickRange? token count = some range) :
    range.start ≤ range.stop ∧ range.stop ≤ count := by
  obtain ⟨first, last, hranges, rfl⟩ := (pickRange?_eq_some_iff (isNumberToken_iff.mpr h)).mp hrange
  obtain ⟨hfirst, hlast⟩ := hranges.bounds
  exact ⟨Nat.le_max_right .., Nat.max_le.mpr ⟨hlast, hfirst⟩⟩

theorem pathsBetween_reversed (keys : List String) {first last : Nat} (h : last < first) :
    pathsBetween keys first last = [] := by
  have hdrop : (keys.take last).drop (first - 1) = [] := by
    rw [List.drop_eq_nil_iff, List.length_take]
    omega
  rw [pathsBetween, hdrop, List.map_nil]

theorem listedPaths_eq_ok_iff {keys : List String} {quote : Char} {text : String}
    {paths : List Path} :
    listedPaths keys quote text = .ok paths ↔
      ∃ parts, List.Forall₂ (TokenMeans keys) (tokens text quote) parts ∧
        paths = parts.flatten := by
  simp only [listedPaths, tokenListPaths, bind_eq_ok_iff, mapM_eq_ok_iff, tokenPaths_eq_ok_iff]
  constructor
  · rintro ⟨parts, hparts, hpaths⟩
    exact ⟨parts, hparts, (Except.ok.inj hpaths).symm⟩
  · rintro ⟨parts, hparts, rfl⟩
    exact ⟨parts, hparts, rfl⟩

theorem listedPaths_eq_error_iff {keys : List String} {quote : Char} {text token : String} :
    listedPaths keys quote text = .error ⟨token⟩ ↔
      ∃ before after, tokens text quote = before ++ token :: after ∧
        (∀ other ∈ before, ∃ paths, TokenMeans keys other paths) ∧ Stray keys token := by
  simp only [listedPaths, tokenListPaths, bind_eq_error_iff, mapM_eq_error_iff,
    tokenPaths_eq_ok_iff, tokenPaths_eq_error_iff]
  constructor
  · rintro (⟨before, other, after, hsplit, hbefore, heq, hstray⟩ | ⟨parts, -, hdone⟩)
    · obtain rfl : token = other := congrArg Unlisted.token heq
      exact ⟨before, after, hsplit, hbefore, hstray⟩
    · cases hdone
  · rintro ⟨before, after, hsplit, hbefore, hstray⟩
    exact .inl ⟨before, token, after, hsplit, hbefore, rfl, hstray⟩

/-- Number tokens are resolved by their grammar, within the keys and with the token as the only
error, and an expression stands for the paths of its tokens in order or fails with its first stray
number. -/
theorem paths_iff_tokens_mean :
    (∀ keys token, NumberShaped token →
      (∀ paths, tokenPaths keys token = .ok paths ↔
        ∃ first last, Ranges keys.length token.toList first last ∧
          paths = pathsBetween keys first last) ∧
      (∀ first last, Ranges keys.length token.toList first last → last < first →
        tokenPaths keys token = .ok []) ∧
      (∀ unlisted, tokenPaths keys token = .error unlisted ↔
        unlisted = ⟨token⟩ ∧ ¬∃ first last, Ranges keys.length token.toList first last) ∧
      ∀ range, pickRange? token keys.length = some range →
        range.start ≤ range.stop ∧ range.stop ≤ keys.length) ∧
    ∀ text numbering quote deep,
      (∀ paths, KeyExpr.paths text numbering quote deep = .ok paths ↔
        ∃ parts, List.Forall₂ (TokenMeans (numbering.keys deep)) (tokens text quote) parts ∧
          paths = parts.flatten) ∧
      ∀ token, KeyExpr.paths text numbering quote deep = .error ⟨token⟩ ↔
        ∃ before after, tokens text quote = before ++ token :: after ∧
          (∀ other ∈ before, ∃ paths, TokenMeans (numbering.keys deep) other paths) ∧
          Stray (numbering.keys deep) token := by
  constructor
  · intro keys token h
    refine ⟨fun paths => tokenPaths_number_eq_ok_iff h, ?_, ?_, fun range => bounds_of_pickRange? h⟩
    · intro first last hrange hreversed
      exact (tokenPaths_number_eq_ok_iff h).mpr
        ⟨first, last, hrange, (pathsBetween_reversed keys hreversed).symm⟩
    · intro unlisted
      rw [tokenPaths_eq_error_iff, Stray, and_iff_right h]
  · intro text numbering quote deep
    rw [paths_eq_listedPaths]
    exact ⟨fun paths => listedPaths_eq_ok_iff, fun token => listedPaths_eq_error_iff⟩

/-- A range that is open and one that is reversed, and a token with two marks before one that is out
of range. -/
theorem paths_iff_tokens_mean_mixed :
    let keys := ["a", "b.c", "d"]
    NumberShaped "02:" ∧ tokenPaths keys "02:" = .ok [[.name "b", .name "c"], [.name "d"]] ∧
      KeyExpr.paths "3-1, x, 02:" (.given keys) '"' false =
        .ok [[.name "x"], [.name "b", .name "c"], [.name "d"]] ∧
      KeyExpr.paths "2, 1--2, 4" (.given keys) '"' false = .error ⟨"1--2"⟩ := by
  intro keys
  have hshape : NumberShaped "02:" := by decide
  have hopen : Ranges keys.length "02:".toList 2 3 :=
    .range (.inr rfl) (rfl : _ = ['0', '2'] ++ ':' :: []) (.number (by decide)) .absent
  have hreversed : Ranges keys.length "3-1".toList 3 1 :=
    .range (.inl rfl) (rfl : _ = ['3'] ++ '-' :: ['1']) (.number (by decide))
      (.number (by decide))
  have hpaths : pathsBetween keys 2 3 = [[.name "b", .name "c"], [.name "d"]] := by decide
  have htwo : ∃ paths, TokenMeans keys "2" paths := ⟨_, tokenPaths_eq_ok_iff.mp rfl⟩
  have hstray : Stray keys "1--2" := (tokenPaths_eq_error_iff.mp rfl).2
  obtain ⟨htokens, hexpressions⟩ := paths_iff_tokens_mean
  refine ⟨hshape, ((htokens keys _ hshape).1 _).mpr ⟨2, 3, hopen, hpaths.symm⟩, ?_, ?_⟩
  · refine ((hexpressions _ (.given keys) '"' false).1 _).mpr
      ⟨[[], [[.name "x"]], [[.name "b", .name "c"], [.name "d"]]], ?_, rfl⟩
    have hsplit : tokens "3-1, x, 02:" '"' = ["3-1", "x", "02:"] := by decide
    rw [hsplit]
    exact .cons (.number (by decide) hreversed)
      (.cons (.name (by decide)) (.cons (.number hshape hopen) .nil))
  · refine ((hexpressions _ (.given keys) '"' false).2 _).mpr ⟨["2"], ["4"], by decide, ?_, hstray⟩
    exact List.forall_mem_singleton.mpr htwo

end JsonKeys.KeyExpr
