import JsonKeys.Number.Literal
import JsonKeys.Proofs.Text.Decimal

/-!
The characters of numbers: a text begins with a digit or a minus sign, and goes on with nothing but
what number literals are made of.
-/
namespace JsonKeys

/-- A text whose characters are those of a number, the first of them one that a number begins
with. -/
structure NumberText (cs : List Char) : Prop where
  begins : ∃ c rest, cs = c :: rest ∧ (c = '-' ∨ c.isDigit)
  isPart : ∀ c ∈ cs, NumberLiteral.isPart c

namespace NumberText

theorem isPart_of_isDigit {c : Char} (h : c.isDigit) : NumberLiteral.isPart c := by
  simp [NumberLiteral.isPart, h]

theorem of_digits {cs : List Char} (hne : cs ≠ []) (h : ∀ c ∈ cs, c.isDigit) : NumberText cs := by
  obtain ⟨c, rest, rfl⟩ := List.exists_cons_of_ne_nil hne
  exact ⟨⟨c, rest, rfl, .inr (h c List.mem_cons_self)⟩, fun d hd => isPart_of_isDigit (h d hd)⟩

theorem minus {cs : List Char} (h : NumberText cs) : NumberText ('-' :: cs) := by
  refine ⟨⟨'-', cs, rfl, .inl rfl⟩, fun c hc => ?_⟩
  rcases List.mem_cons.mp hc with rfl | hc
  · decide
  · exact h.isPart c hc

theorem append {cs more : List Char} (h : NumberText cs)
    (hmore : ∀ c ∈ more, NumberLiteral.isPart c) :
    NumberText (cs ++ more) := by
  obtain ⟨c, rest, rfl, hc⟩ := h.begins
  refine ⟨⟨c, rest ++ more, rfl, hc⟩, fun d hd => ?_⟩
  rcases List.mem_append.mp hd with hd | hd
  · exact h.isPart d hd
  · exact hmore d hd

theorem intText (n : Int) : NumberText (Text.intText n) := by
  have habs : NumberText (Text.natText n.natAbs) :=
    of_digits (Text.natText_ne_nil _) fun _ => Text.isDigit_of_mem_natText
  unfold Text.intText
  split
  · exact habs.minus
  · exact habs

end NumberText

theorem Decimal.digits_ne_nil (d : Decimal) : d.digits ≠ [] := by
  unfold digits
  split
  · exact List.cons_ne_nil _ _
  · assumption

theorem Decimal.isDigit_of_mem_digits {d : Decimal} {c : Char} (h : c ∈ d.digits) : c.isDigit := by
  unfold digits at h
  split at h
  · rw [List.mem_singleton.mp h]
    decide
  · have hmem : c ∈ Text.natText d.coefficient :=
      List.mem_reverse.mp ((List.dropWhile_sublist _).subset (List.mem_reverse.mp h))
    exact Text.isDigit_of_mem_natText hmem

namespace FloatLayout

theorem isPart_of_mem_zeros {n : Nat} {c : Char} (h : c ∈ List.replicate n '0') :
    NumberLiteral.isPart c := by
  rw [(List.mem_replicate.mp h).2]
  decide

theorem numberText_positional {digits : List Char} (hne : digits ≠ []) (h : ∀ c ∈ digits, c.isDigit)
    (exponent : Int) : NumberText (positional digits exponent) := by
  have hpart : ∀ c ∈ digits, NumberLiteral.isPart c :=
    fun c hc => NumberText.isPart_of_isDigit (h c hc)
  unfold positional
  dsimp only
  split
  · have hzero : NumberText ['0', '.'] :=
      ⟨⟨'0', ['.'], rfl, .inr (by decide)⟩, List.all_eq_true.mp (by decide)⟩
    exact (hzero.append fun c => isPart_of_mem_zeros).append hpart
  · have hwhole : NumberText (digits.take (exponent.toNat + 1)) := by
      refine .of_digits ?_ fun c hc => h c (List.mem_of_mem_take hc)
      simpa using hne
    refine (hwhole.append fun c => isPart_of_mem_zeros).append fun c hc => ?_
    rcases List.mem_cons.mp hc with rfl | hc
    · decide
    · split at hc
      · rw [List.mem_singleton.mp hc]
        decide
      · exact hpart c (List.mem_of_mem_drop hc)

theorem numberText_scientific (layout : FloatLayout) {digits : List Char} (hne : digits ≠ [])
    (h : ∀ c ∈ digits, c.isDigit) (exponent : Int) :
    NumberText (layout.scientific digits exponent) := by
  have hmark : ∀ c ∈ 'e' :: (if 0 ≤ exponent ∧ layout.plus then ['+'] else []),
      NumberLiteral.isPart c := by
    split <;> exact List.all_eq_true.mp (by decide)
  unfold scientific
  dsimp only
  refine NumberText.append (NumberText.append ?_ hmark) (NumberText.intText exponent).isPart
  match digits, hne, h with
  | [_], hne, h => exact .of_digits hne h
  | first :: second :: rest, _, h =>
    have hfirst : NumberText [first] := .of_digits (List.cons_ne_nil _ _) (by simp [h first])
    refine hfirst.append fun c hc => ?_
    rcases List.mem_cons.mp hc with rfl | hc
    · decide
    · exact NumberText.isPart_of_isDigit (h c (List.mem_cons_of_mem _ hc))

theorem numberText_write (layout : FloatLayout) (x : Binary64) : NumberText (layout.write x) := by
  have hne := x.shortest.digits_ne_nil
  have hdigits : ∀ c ∈ x.shortest.digits, c.isDigit := fun _ => Decimal.isDigit_of_mem_digits
  have hmagnitude : NumberText
    (if layout.lowest ≤ x.shortest.exponent ∧ x.shortest.exponent ≤ layout.highest
      then positional x.shortest.digits x.shortest.exponent
      else layout.scientific x.shortest.digits x.shortest.exponent) := by
    split
    · exact numberText_positional hne hdigits _
    · exact layout.numberText_scientific hne hdigits _
  unfold write
  dsimp only
  split
  · exact hmagnitude.minus
  · exact hmagnitude

end FloatLayout

theorem Number.numberText_write (layout : FloatLayout) (n : Number) :
    NumberText (n.write layout) := by
  cases n with
  | integer n => exact .intText n
  | float x => exact layout.numberText_write x

end JsonKeys
