import JsonKeys.KeyExpr.Numbers

/-!
The grammar of key numbers: a number of a key, or two of them with a dash or a colon in between, of
which either may be left out. Numbers are read by this grammar and by no other.
-/
namespace JsonKeys.KeyExpr

/-- A run of digits and its value. -/
def DigitRun (cs : List Char) (n : Nat) : Prop :=
  cs ≠ [] ∧ (∀ c ∈ cs, c.isDigit) ∧ Nat.ofDigitChars 10 cs 0 = n

/-- The digits of a number that one of `count` keys has. -/
def KeyNumber (count : Nat) (cs : List Char) (n : Nat) : Prop := DigitRun cs n ∧ 1 ≤ n ∧ n ≤ count

instance (cs : List Char) (n : Nat) : Decidable (DigitRun cs n) :=
  decidable_of_iff (cs ≠ [] ∧ cs.all Char.isDigit ∧ Nat.ofDigitChars 10 cs 0 = n)
    (by simp [DigitRun])

instance (count : Nat) (cs : List Char) (n : Nat) : Decidable (KeyNumber count cs n) :=
  inferInstanceAs (Decidable (DigitRun cs n ∧ 1 ≤ n ∧ n ≤ count))

/-- One end of a range, which may be left out for a default. -/
inductive RangeEnd (count default : Nat) : List Char → Nat → Prop
  | absent : RangeEnd count default [] default
  | number {cs : List Char} {n : Nat} (h : KeyNumber count cs n) : RangeEnd count default cs n

/-- The mark between the ends of a range. -/
def IsMark (c : Char) : Prop := c = '-' ∨ c = ':'

instance (c : Char) : Decidable (IsMark c) := inferInstanceAs (Decidable (c = '-' ∨ c = ':'))

/-- A token for the keys from one number to another, among `count` keys. -/
inductive Ranges (count : Nat) (token : List Char) : Nat → Nat → Prop
  | number {n : Nat} (h : KeyNumber count token n) : Ranges count token n n
  | range {first last : List Char} {mark : Char} {m n : Nat} (hmark : IsMark mark)
      (htoken : token = first ++ mark :: last) (hfirst : RangeEnd count 1 first m)
      (hlast : RangeEnd count count last n) : Ranges count token m n

/-- The keys that a token stands for, in their order. -/
def Denotes (keys : List String) (token : String) (picked : List String) : Prop :=
  ∃ first last, Ranges keys.length token.toList first last ∧
    picked = (keys.take last).drop (first - 1)

theorem DigitRun.not_isMark {cs : List Char} {n : Nat} (h : DigitRun cs n) :
    ∀ c ∈ cs, ¬IsMark c := by
  intro c hc hmark
  have hdigit := h.2.1 c hc
  rcases hmark with rfl | rfl
  · exact absurd hdigit (by decide)
  · exact absurd hdigit (by decide)

theorem RangeEnd.not_isMark {count default n : Nat} {cs : List Char}
    (h : RangeEnd count default cs n) : ∀ c ∈ cs, ¬IsMark c := by
  cases h with
  | absent => simp
  | number h => exact h.1.not_isMark

theorem isNumberToken_iff {token : String} :
    isNumberToken token = true ↔ token ≠ "" ∧ ∀ c ∈ token.toList, c.isDigit ∨ IsMark c := by
  simp [isNumberToken, IsMark, or_assoc]

theorem readDigits?_eq_some_iff {cs : List Char} {n : Nat} :
    Text.readDigits? cs = some n ↔ DigitRun cs n := by
  simp [Text.readDigits?, DigitRun, List.all_eq_true, and_assoc]

/-- Without a plus sign numbers are nothing but digits. -/
theorem keyNumber?_eq_some_iff {count n : Nat} {cs : List Char} (h : '+' ∉ cs) :
    keyNumber? count cs = some n ↔ KeyNumber count cs n := by
  have hread : Text.readNat? cs = Text.readDigits? cs := by
    rw [Text.readNat?]
    rintro rest rfl
    exact h List.mem_cons_self
  unfold keyNumber? KeyNumber
  rw [hread, ← readDigits?_eq_some_iff]
  cases Text.readDigits? cs with
  | none => simp
  | some m =>
    by_cases hm : 1 ≤ m ∧ m ≤ count
    · simp only [Option.bind_eq_bind, Option.bind_some, if_pos hm, Option.some.injEq]
      constructor
      · rintro rfl
        exact ⟨rfl, hm⟩
      · exact fun hx => hx.1
    · simp only [Option.bind_eq_bind, Option.bind_some, if_neg hm, reduceCtorEq, Option.some.injEq,
        false_iff, not_and]
      rintro rfl
      exact not_and.mp hm

theorem rangeEnd?_eq_some_iff {count default n : Nat} {cs : List Char} (h : '+' ∉ cs) :
    rangeEnd? count default cs = some n ↔ RangeEnd count default cs n := by
  cases cs with
  | nil =>
    simp only [rangeEnd?, List.isEmpty_nil, if_true, Option.some.injEq]
    constructor
    · rintro rfl
      exact .absent
    · intro hx
      cases hx with
      | absent => rfl
      | number hx => exact absurd rfl hx.1.1
  | cons c cs =>
    simp only [rangeEnd?, List.isEmpty_cons, Bool.false_eq_true, if_false]
    rw [keyNumber?_eq_some_iff h]
    constructor
    · exact .number
    · intro hx
      cases hx with
      | number hx => exact hx

/-- A text is split at its first mark. -/
theorem splitRange_append {first last : List Char} {mark : Char} (hfirst : ∀ c ∈ first, ¬IsMark c)
    (hmark : IsMark mark) : splitRange (first ++ mark :: last) = (first, some last) := by
  have hnot : ∀ c ∈ first, !(c == '-' || c == ':') := by
    intro c hc
    simpa [IsMark] using hfirst c hc
  have hhead : (!(mark == '-' || mark == ':')) = false := by
    rcases hmark with rfl | rfl <;> decide
  simp only [splitRange, List.dropWhile_append_of_pos hnot, List.takeWhile_append_of_pos hnot,
    List.dropWhile_cons, List.takeWhile_cons, hhead, Bool.false_eq_true, if_false, List.append_nil]

theorem splitRange_of_not_isMark {cs : List Char} (h : ∀ c ∈ cs, ¬IsMark c) :
    splitRange cs = (cs, none) := by
  have hnot : ∀ c ∈ cs, !(c == '-' || c == ':') := by
    intro c hc
    simpa [IsMark] using h c hc
  have hdrop : cs.dropWhile (fun c => !(c == '-' || c == ':')) = [] := by
    rw [← List.append_nil cs, List.dropWhile_append_of_pos hnot, List.dropWhile_nil]
  simp only [splitRange, hdrop]

/-- A text has no mark, or else a first one. -/
theorem exists_first_mark (cs : List Char) : (∀ c ∈ cs, ¬IsMark c) ∨
    ∃ first mark last, cs = first ++ mark :: last ∧ (∀ c ∈ first, ¬IsMark c) ∧ IsMark mark := by
  induction cs with
  | nil => exact .inl (by simp)
  | cons c cs ih =>
    by_cases hc : IsMark c
    · exact .inr ⟨[], c, cs, rfl, by simp, hc⟩
    · rcases ih with hall | ⟨first, mark, last, rfl, hfirst, hmark⟩
      · exact .inl (List.forall_mem_cons.mpr ⟨hc, hall⟩)
      · exact .inr ⟨c :: first, mark, last, rfl, List.forall_mem_cons.mpr ⟨hc, hfirst⟩, hmark⟩

theorem drop_take_pred {keys : List String} {n : Nat} (h : 1 ≤ n) :
    (keys.take n).drop (n - 1) = (keys.drop (n - 1)).take 1 := by
  rw [List.drop_take, Nat.sub_sub_self h]

/-- The range that a token picks, from its first number to its last. -/
def Picks (token : String) (count : Nat) (range : KeyRange) : Prop :=
  ∃ first last, Ranges count token.toList first last ∧ range = ⟨first - 1, max last (first - 1)⟩

/-- Without a mark a token is a single number. -/
theorem pickRange?_of_not_isMark {count : Nat} {range : KeyRange} {token : String}
    (hplus : '+' ∉ token.toList) (hnone : ∀ c ∈ token.toList, ¬IsMark c) :
    pickRange? token count = some range ↔ Picks token count range := by
  unfold pickRange? Picks
  simp only [splitRange_of_not_isMark hnone, Option.bind_eq_bind, Option.bind_eq_some_iff,
    keyNumber?_eq_some_iff hplus]
  have hsame : ∀ n : Nat, max n (n - 1) = n := by omega
  constructor
  · rintro ⟨n, hn, hrange⟩
    exact ⟨n, n, .number hn, by rw [hsame, ← Option.some.inj hrange]⟩
  · rintro ⟨m, n, hrange, rfl⟩
    cases hrange with
    | number hn => exact ⟨m, hn, by rw [hsame]; rfl⟩
    | range hmark htoken => exact absurd hmark (hnone _ (by simp [htoken]))

/-- With a mark a token is a range, whose ends are on the two sides of it. -/
theorem pickRange?_of_isMark {count : Nat} {range : KeyRange} {token : String}
    {first last : List Char} {mark : Char} (hplus : '+' ∉ token.toList)
    (htoken : token.toList = first ++ mark :: last) (hfirst : ∀ c ∈ first, ¬IsMark c)
    (hmark : IsMark mark) :
    pickRange? token count = some range ↔ Picks token count range := by
  have hplus₁ : '+' ∉ first := fun hmem => hplus (by simp [htoken, hmem])
  have hplus₂ : '+' ∉ last := fun hmem => hplus (by simp [htoken, hmem])
  unfold pickRange? Picks
  simp only [htoken, splitRange_append hfirst hmark, Option.bind_eq_bind, Option.bind_eq_some_iff,
    rangeEnd?_eq_some_iff hplus₁, rangeEnd?_eq_some_iff hplus₂]
  constructor
  · rintro ⟨m, hm, n, hn, hrange⟩
    exact ⟨m, n, .range hmark rfl hm hn, (Option.some.inj hrange).symm⟩
  · rintro ⟨m, n, hrange, rfl⟩
    cases hrange with
    | number hn => exact absurd hmark (hn.1.not_isMark mark (by simp))
    | range hmark' hsplit hm hn =>
      -- the ends have no marks, so that the text is split at the only one
      have hsame : splitRange (first ++ mark :: last) = (first, some last) :=
        splitRange_append hfirst hmark
      rw [hsplit, splitRange_append hm.not_isMark hmark'] at hsame
      obtain ⟨rfl, hlast⟩ := Prod.mk.inj hsame
      obtain rfl := Option.some.inj hlast
      exact ⟨m, hm, n, hn, rfl⟩

/-- A number token picks offsets just if the grammar has it. -/
theorem pickRange?_eq_some_iff {count : Nat} {token : String} (h : isNumberToken token = true)
    {range : KeyRange} : pickRange? token count = some range ↔ Picks token count range := by
  have hplus : '+' ∉ token.toList := by
    intro hmem
    have hx := (isNumberToken_iff.mp h).2 '+' hmem
    revert hx
    decide
  rcases exists_first_mark token.toList with hnone | ⟨first, mark, last, htoken, hfirst, hmark⟩
  · exact pickRange?_of_not_isMark hplus hnone
  · exact pickRange?_of_isMark hplus htoken hfirst hmark

/-- Up to where a range begins there is nothing to take, so that a reversed one may as well be left
as it is. -/
theorem extract_max {keys : List String} (start last : Nat) :
    keys.extract start (max last start) = (keys.take last).drop start := by
  have hlength : max last start - start = last - start := by omega
  rw [List.extract_eq_take_drop, hlength, List.drop_take]

/-- A number token picks keys just if the grammar has it, and then the keys that it denotes. -/
theorem pickKeys?_eq_some_iff {keys : List String} {token : String} (h : isNumberToken token = true)
    {picked : List String} : pickKeys? token keys = some picked ↔ Denotes keys token picked := by
  simp only [pickKeys?, Option.map_eq_some_iff, pickRange?_eq_some_iff h]
  constructor
  · rintro ⟨range, ⟨first, last, hrange, rfl⟩, rfl⟩
    exact ⟨first, last, hrange, extract_max ..⟩
  · rintro ⟨first, last, hrange, rfl⟩
    exact ⟨_, ⟨first, last, hrange, rfl⟩, extract_max ..⟩

end JsonKeys.KeyExpr
