import JsonKeys.Text.Decimal

/-! Decimal integers are read back from their text, those of 64 bits among them. -/
namespace JsonKeys.Text

theorem isDigit_of_mem_natText {n : Nat} {c : Char} (h : c ∈ natText n) : c.isDigit :=
  Nat.isDigit_of_mem_toDigits (by decide) (by decide) h

theorem isDigit_or_minus_of_mem_intText {n : Int} {c : Char} (h : c ∈ intText n) :
    c.isDigit ∨ c = '-' := by
  unfold intText at h
  split at h
  · rcases List.mem_cons.mp h with rfl | h
    · exact .inr rfl
    · exact .inl (isDigit_of_mem_natText h)
  · exact .inl (isDigit_of_mem_natText h)

theorem natText_ne_nil (n : Nat) : natText n ≠ [] := Nat.toDigits_ne_nil

theorem intText_ne_nil (n : Int) : intText n ≠ [] := by
  unfold intText
  split
  · exact List.cons_ne_nil _ _
  · exact natText_ne_nil _

/-- A text without a sign is read as digits alone. -/
theorem readInt?_of_isDigit {cs : List Char} (h : ∀ c ∈ cs, c.isDigit) :
    readInt? cs = (readDigits? cs).map Int.ofNat := by
  have hsign : ∀ {sign : Char} {rest : List Char}, sign.isDigit = false → cs ≠ sign :: rest := by
    rintro sign rest hs rfl
    have hdigit := h sign List.mem_cons_self
    rw [hs] at hdigit
    cases hdigit
  have hnat : readNat? cs = readDigits? cs := by
    rw [readNat?]
    intro rest
    exact hsign (by decide)
  rw [readInt?, hnat]
  intro rest
  exact hsign (by decide)

theorem readInt?_intText (n : Int) : readInt? (intText n) = some n := by
  unfold intText
  split
  · next hneg =>
    have habs : -(n.natAbs : Int) = n := by omega
    rw [readInt?, readDigits?_natText]
    exact congrArg some habs
  · next hneg =>
    have habs : Int.ofNat n.natAbs = n := by
      rw [Int.ofNat_eq_natCast]
      omega
    rw [readInt?_of_isDigit fun c hc => isDigit_of_mem_natText hc, readDigits?_natText,
      Option.map_some, habs]

theorem readInt64?_intText (i : Int64) : readInt64? (intText i.toInt) = some i := by
  have hlo : -0x8000000000000000 ≤ i.toInt := i.le_toInt
  have hhi : i.toInt < 0x8000000000000000 := i.toInt_lt
  have hbounds := And.intro hlo hhi
  simp only [readInt64?, readInt?_intText, Option.bind_eq_bind, Option.bind_some, if_pos hbounds,
    Int64.ofInt_toInt]

end JsonKeys.Text
