import JsonKeys.Proofs.KeyExpr.Ranges
import JsonKeys.Proofs.Place.Subscript

/-!
The grammar of subscripts: an integer of 64 bits, or two or three fields between colons, each of
them such an integer or empty. An array reads names by this grammar and by no other.
-/
namespace JsonKeys

/-- Digits behind an optional minus sign, and the integer that they stand for. -/
inductive Text.Denotes : List Char → Int → Prop
  | digits {cs : List Char} {n : Nat} (h : KeyExpr.DigitRun cs n) : Denotes cs n
  | minus {cs : List Char} {n : Nat} (h : KeyExpr.DigitRun cs n) : Denotes ('-' :: cs) (-n)

namespace Slice

/-- A field of a slice, which is empty for an absent bound. -/
inductive FieldDenotes : List Char → Option Int64 → Prop
  | absent : FieldDenotes [] none
  | bound {cs : List Char} {i : Int64} (h : Text.Denotes cs i.toInt) : FieldDenotes cs (some i)

/-- A start and a stop, and behind a second colon a step. -/
inductive Denotes : List Char → Slice → Prop
  | two {a b : List Char} {start stop : Option Int64} (hstart : FieldDenotes a start)
      (hstop : FieldDenotes b stop) : Denotes (a ++ ':' :: b) ⟨start, stop, none⟩
  | three {a b c : List Char} {start stop step : Option Int64} (hstart : FieldDenotes a start)
      (hstop : FieldDenotes b stop) (hstep : FieldDenotes c step) :
      Denotes (a ++ ':' :: (b ++ ':' :: c)) ⟨start, stop, step⟩

end Slice

/-- A name that stands for an index or for a slice. -/
inductive Subscript.Denotes (name : String) : Subscript → Prop
  | index {i : Int64} (h : Text.Denotes name.toList i.toInt) : Denotes name (.index i)
  | slice {s : Slice} (h : Slice.Denotes name.toList s) : Denotes name (.slice s)

namespace Text

theorem Denotes.class_of_mem {cs : List Char} {n : Int} (h : Denotes cs n) {c : Char}
    (hc : c ∈ cs) :
    c.isDigit ∨ c = '-' := by
  cases h with
  | digits h => exact .inl (h.2.1 c hc)
  | minus h =>
    rcases List.mem_cons.mp hc with rfl | hc
    · exact .inr rfl
    · exact .inl (h.2.1 c hc)

theorem Denotes.ne_nil {cs : List Char} {n : Int} (h : Denotes cs n) : cs ≠ [] := by
  cases h with
  | digits h => exact h.1
  | minus h => exact List.cons_ne_nil _ _

theorem Denotes.colon_notMem {cs : List Char} {n : Int} (h : Denotes cs n) : ':' ∉ cs := by
  intro hc
  have hclass := h.class_of_mem hc
  revert hclass
  decide

/-- Without a plus sign integers are nothing but digits and a minus sign. -/
theorem readInt?_eq_some_iff {cs : List Char} {n : Int} (h : '+' ∉ cs) :
    readInt? cs = some n ↔ Denotes cs n := by
  have hminus : ∀ {rest : List Char} {m : Nat}, ¬KeyExpr.DigitRun ('-' :: rest) m := by
    intro rest m hrun
    exact absurd (hrun.2.1 '-' List.mem_cons_self) (by decide)
  unfold readInt?
  split
  · next rest =>
    simp only [Option.map_eq_some_iff, Option.bind_eq_bind, Option.bind_eq_some_iff,
      Option.pure_def, Option.some.injEq, KeyExpr.readDigits?_eq_some_iff]
    constructor
    · rintro ⟨_, ⟨m, hrun, rfl⟩, rfl⟩
      exact .minus hrun
    · intro hdenotes
      cases hdenotes with
      | digits hrun => exact absurd hrun hminus
      | minus hrun => exact ⟨_, ⟨_, hrun, rfl⟩, rfl⟩
  · next hsign =>
    have hread : readNat? cs = readDigits? cs := by
      rw [readNat?]
      rintro rest rfl
      exact h List.mem_cons_self
    simp only [hread, Option.map_eq_some_iff, KeyExpr.readDigits?_eq_some_iff]
    constructor
    · rintro ⟨m, hrun, rfl⟩
      exact .digits hrun
    · intro hdenotes
      cases hdenotes with
      | digits hrun => exact ⟨_, hrun, rfl⟩
      | minus hrun => exact absurd rfl (hsign _)

theorem readInt64?_eq_some_iff {cs : List Char} {i : Int64} (h : '+' ∉ cs) :
    readInt64? cs = some i ↔ Denotes cs i.toInt := by
  have hlo : -0x8000000000000000 ≤ i.toInt := i.le_toInt
  have hhi : i.toInt < 0x8000000000000000 := i.toInt_lt
  rw [← readInt?_eq_some_iff h]
  unfold readInt64?
  simp only [Option.bind_eq_bind, Option.bind_eq_some_iff, Option.ite_none_right_eq_some,
    Option.some.injEq]
  constructor
  · rintro ⟨n, hread, hn, rfl⟩
    rw [hread, Int64.toInt_ofInt_of_le hn.1 hn.2]
  · intro hread
    exact ⟨i.toInt, hread, ⟨hlo, hhi⟩, Int64.ofInt_toInt i⟩

end Text

namespace Slice

theorem FieldDenotes.class_of_mem {cs : List Char} {bound : Option Int64}
    (h : FieldDenotes cs bound) {c : Char} (hc : c ∈ cs) : c.isDigit ∨ c = '-' := by
  cases h with
  | absent => cases hc
  | bound h => exact h.class_of_mem hc

theorem FieldDenotes.colon_notMem {cs : List Char} {bound : Option Int64}
    (h : FieldDenotes cs bound) :
    ':' ∉ cs := by
  cases h with
  | absent => exact List.not_mem_nil
  | bound h => exact h.colon_notMem

theorem bound?_eq_some_iff {cs : List Char} {bound : Option Int64} (h : '+' ∉ cs) :
    bound? cs = some bound ↔ FieldDenotes cs bound := by
  cases cs with
  | nil =>
    rw [bound?, List.isEmpty_nil, if_pos rfl, Option.some.injEq]
    constructor
    · rintro rfl
      exact .absent
    · intro hfield
      cases hfield with
      | absent => rfl
      | bound hi => exact absurd rfl hi.ne_nil
  | cons c cs =>
    rw [bound?, List.isEmpty_cons, if_neg Bool.false_ne_true]
    simp only [Option.map_eq_some_iff, Text.readInt64?_eq_some_iff h]
    constructor
    · rintro ⟨i, hi, rfl⟩
      exact .bound hi
    · intro hfield
      cases hfield with
      | bound hi => exact ⟨_, hi, rfl⟩

theorem FieldDenotes.bound?_eq {cs : List Char} {bound : Option Int64} (h : FieldDenotes cs bound) :
    bound? cs = some bound := by
  refine (bound?_eq_some_iff fun hplus => ?_).mpr h
  have hclass := h.class_of_mem hplus
  revert hclass
  decide

theorem fields_ne_nil (cs : List Char) : fields cs ≠ [] := by
  cases cs with
  | nil => exact List.cons_ne_nil _ _
  | cons c cs =>
    unfold fields
    split
    · exact List.cons_ne_nil _ _
    · split <;> exact List.cons_ne_nil _ _

/-- The fields with a colon before each but the first are the text. -/
theorem eq_of_fields {cs field : List Char} {rest : List (List Char)}
    (h : fields cs = field :: rest) :
    cs = field ++ rest.flatMap (':' :: ·) := by
  induction cs generalizing field rest with
  | nil =>
    obtain ⟨rfl, rfl⟩ := List.cons.inj h
    rfl
  | cons c cs ih =>
    rw [fields] at h
    split at h
    · next hc =>
      obtain ⟨rfl, rfl⟩ := List.cons.inj h
      obtain ⟨field, rest, hfields⟩ := List.exists_cons_of_ne_nil (fields_ne_nil cs)
      rw [hfields, List.flatMap_cons, List.nil_append, List.cons_append, hc, ← ih hfields]
    · split at h
      · next hnil => exact absurd hnil (fields_ne_nil cs)
      · next field' rest' hfields =>
        obtain ⟨rfl, rfl⟩ := List.cons.inj h
        rw [List.cons_append, ← ih hfields]

theorem Denotes.class_of_mem {cs : List Char} {s : Slice} (h : Denotes cs s) {c : Char}
    (hc : c ∈ cs) :
    c.isDigit ∨ c = '-' ∨ c = ':' := by
  cases h with
  | two hstart hstop =>
    rcases List.mem_append.mp hc with hc | hc
    · exact (hstart.class_of_mem hc).imp_right .inl
    · rcases List.mem_cons.mp hc with rfl | hc
      · exact .inr (.inr rfl)
      · exact (hstop.class_of_mem hc).imp_right .inl
  | three hstart hstop hstep =>
    simp only [List.mem_append, List.mem_cons] at hc
    rcases hc with hc | rfl | hc | rfl | hc
    · exact (hstart.class_of_mem hc).imp_right .inl
    · exact .inr (.inr rfl)
    · exact (hstop.class_of_mem hc).imp_right .inl
    · exact .inr (.inr rfl)
    · exact (hstep.class_of_mem hc).imp_right .inl

theorem Denotes.colon_mem {cs : List Char} {s : Slice} (h : Denotes cs s) : ':' ∈ cs := by
  cases h <;> simp

theorem ofText?_eq_some_iff {cs : List Char} {s : Slice} (h : '+' ∉ cs) :
    ofText? cs = some s ↔ Denotes cs s := by
  constructor
  · intro hs
    unfold ofText? at hs
    split at hs
    · next a b hfields =>
      have hcs : cs = a ++ ':' :: b := by simpa using eq_of_fields hfields
      have ha : '+' ∉ a := fun hc => h (by simp [hcs, hc])
      have hb : '+' ∉ b := fun hc => h (by simp [hcs, hc])
      simp only [Option.bind_eq_bind, Option.bind_eq_some_iff, Option.pure_def, Option.some.injEq,
        bound?_eq_some_iff ha, bound?_eq_some_iff hb] at hs
      obtain ⟨start, hstart, stop, hstop, rfl⟩ := hs
      exact hcs ▸ .two hstart hstop
    · next a b c hfields =>
      have hcs : cs = a ++ ':' :: (b ++ ':' :: c) := by simpa using eq_of_fields hfields
      have ha : '+' ∉ a := fun hp => h (by simp [hcs, hp])
      have hb : '+' ∉ b := fun hp => h (by simp [hcs, hp])
      have hc : '+' ∉ c := fun hp => h (by simp [hcs, hp])
      simp only [Option.bind_eq_bind, Option.bind_eq_some_iff, Option.pure_def, Option.some.injEq,
        bound?_eq_some_iff ha, bound?_eq_some_iff hb, bound?_eq_some_iff hc] at hs
      obtain ⟨start, hstart, stop, hstop, step, hstep, rfl⟩ := hs
      exact hcs ▸ .three hstart hstop hstep
    · cases hs
  · intro hs
    cases hs with
    | @two a b start stop hstart hstop =>
      have hfields : fields (a ++ ':' :: b) = [a, b] := by
        rw [fields_append hstart.colon_notMem, fields_of_notMem hstop.colon_notMem]
      simp [ofText?, hfields, hstart.bound?_eq, hstop.bound?_eq]
    | @three a b c start stop step hstart hstop hstep =>
      have hfields : fields (a ++ ':' :: (b ++ ':' :: c)) = [a, b, c] := by
        rw [fields_append hstart.colon_notMem, fields_append hstop.colon_notMem,
          fields_of_notMem hstep.colon_notMem]
      simp [ofText?, hfields, hstart.bound?_eq, hstop.bound?_eq, hstep.bound?_eq]

end Slice

namespace Subscript

theorem Denotes.toList_ne_nil {name : String} {subscript : Subscript} (h : Denotes name subscript) :
    name.toList ≠ [] := by
  cases h with
  | index h => exact h.ne_nil
  | slice h => exact List.ne_nil_of_mem h.colon_mem

theorem Denotes.class_of_mem {name : String} {subscript : Subscript} (h : Denotes name subscript)
    {c : Char} (hc : c ∈ name.toList) : c.isDigit ∨ c = '-' ∨ c = ':' := by
  cases h with
  | index h => exact (h.class_of_mem hc).imp_right .inl
  | slice h => exact h.class_of_mem hc

/-- Names in the characters of a subscript are read by the grammar. -/
theorem ofName?_eq_some_iff_of_class {name : String} (hne : name.toList ≠ [])
    (hclass : ∀ c ∈ name.toList, c.isDigit ∨ c = '-' ∨ c = ':') {subscript : Subscript} :
    ofName? name = some subscript ↔ Denotes name subscript := by
  have hplus : '+' ∉ name.toList := fun hc => absurd (hclass '+' hc) (by decide)
  rw [ofName?_of_class hne hclass]
  split
  · next hcolon =>
    simp only [Option.map_eq_some_iff, Slice.ofText?_eq_some_iff hplus]
    constructor
    · rintro ⟨s, hs, rfl⟩
      exact .slice hs
    · intro hdenotes
      cases hdenotes with
      | index hi => exact absurd hcolon hi.colon_notMem
      | slice hs => exact ⟨_, hs, rfl⟩
  · next hcolon =>
    simp only [Option.map_eq_some_iff, Text.readInt64?_eq_some_iff hplus]
    constructor
    · rintro ⟨i, hi, rfl⟩
      exact .index hi
    · intro hdenotes
      cases hdenotes with
      | index hi => exact ⟨_, hi, rfl⟩
      | slice hs => exact absurd hs.colon_mem hcolon

theorem ofName?_eq_some_iff {name : String} {subscript : Subscript} :
    ofName? name = some subscript ↔ Denotes name subscript := by
  by_cases hclass : name.toList ≠ [] ∧ ∀ c ∈ name.toList, c.isDigit ∨ c = '-' ∨ c = ':'
  · exact ofName?_eq_some_iff_of_class hclass.1 hclass.2
  · have hnone : ofName? name = none := by
      rw [ofName?, if_neg]
      simpa [List.all_eq_true, or_assoc] using hclass
    rw [hnone]
    constructor
    · intro h
      cases h
    · exact fun h => absurd ⟨h.toList_ne_nil, fun _ hc => h.class_of_mem hc⟩ hclass

end Subscript

theorem eq_of_indexPosition_eq_error {i : Int64} {len : Nat} {fault : Fault}
    (h : indexPosition i len = .error fault) : fault = .indexOutOfRange i len := by
  simp only [indexPosition] at h
  by_cases hk : 0 ≤ (if i.toInt < 0 then i.toInt + len else i.toInt) ∧
      (if i.toInt < 0 then i.toInt + len else i.toInt) < len
  · rw [dif_pos hk] at h
    cases h
  · rw [dif_neg hk] at h
    exact (Except.error.inj h).symm

namespace Segment

theorem place_name_of_subscript {name : String} {segment : Segment}
    (h : (Segment.name name).subscript? = segment.subscript?) (hsome : segment.subscript? ≠ none)
    (items : List Value) :
    (Segment.name name).place (.array items) = segment.place (.array items) := by
  simp only [place, h]
  cases hsub : segment.subscript? with
  | none => exact absurd hsub hsome
  | some subscript => cases subscript <;> rfl

theorem place_name_eq_error_iff {name : String} {items : List Value} :
    (Segment.name name).place (.array items) = .error (.kindMismatch name .array) ↔
      (Segment.name name).subscript? = none := by
  simp only [place]
  cases hsub : (Segment.name name).subscript? with
  | none => simp [text]
  | some subscript =>
    cases subscript with
    | index i =>
      simp only [reduceCtorEq, iff_false]
      cases hk : indexPosition i items.length with
      | ok k =>
        intro h
        cases h
      | error fault =>
        -- an index can only be out of range
        rw [eq_of_indexPosition_eq_error hk]
        intro h
        cases h
    | slice s => simp

/-- To an array a name is an index exactly if it is an integer of 64 bits, a slice exactly if it has
one colon or two between fields that are such integers or empty, and else of the wrong kind. The
text of an index or of a slice is that same index or slice. -/
theorem place_name_array (name : String) (items : List Value) :
    (∀ i, (Segment.name name).subscript? = some (.index i) ↔ Text.Denotes name.toList i.toInt) ∧
    (∀ s, (Segment.name name).subscript? = some (.slice s) ↔ Slice.Denotes name.toList s) ∧
    (∀ i : Int64, Text.Denotes name.toList i.toInt →
      (Segment.name name).place (.array items) = (Segment.index i).place (.array items)) ∧
    (∀ s, Slice.Denotes name.toList s →
      (Segment.name name).place (.array items) = (Segment.slice s).place (.array items)) ∧
    ((Segment.name name).place (.array items) = .error (.kindMismatch name .array) ↔
      (¬∃ i : Int64, Text.Denotes name.toList i.toInt) ∧ ¬∃ s, Slice.Denotes name.toList s) ∧
    (∀ i, (Segment.name (Segment.index i).text).subscript? = some (.index i)) ∧
    ∀ s, (Segment.name (Segment.slice s).text).subscript? = some (.slice s) := by
  have hindex : ∀ i, (Segment.name name).subscript? = some (.index i) ↔
      Text.Denotes name.toList i.toInt := by
    intro i
    rw [subscript?, Subscript.ofName?_eq_some_iff]
    exact ⟨fun h => by cases h; assumption, .index⟩
  have hslice : ∀ s, (Segment.name name).subscript? = some (.slice s) ↔
      Slice.Denotes name.toList s := by
    intro s
    rw [subscript?, Subscript.ofName?_eq_some_iff]
    exact ⟨fun h => by cases h; assumption, .slice⟩
  refine ⟨hindex, hslice, ?_, ?_, ?_, fun i => subscript?_text (.index i),
    fun s => subscript?_text (.slice s)⟩
  · exact fun i hi => place_name_of_subscript ((hindex i).mpr hi) (by simp [subscript?]) items
  · exact fun s hs => place_name_of_subscript ((hslice s).mpr hs) (by simp [subscript?]) items
  · rw [place_name_eq_error_iff]
    simp only [← hindex, ← hslice]
    cases hsub : (Segment.name name).subscript? with
    | none => simp
    | some subscript => cases subscript <;> simp

/-- A sign in front of zeros, and a sign between empty fields. -/
theorem place_name_array_signed :
    Text.Denotes "-007".toList (-7 : Int64).toInt ∧
    Slice.Denotes ":-1:".toList ⟨none, some (-1), none⟩ ∧
    (Segment.name "-007").place (.array [.null]) = (Segment.index (-7)).place (.array [.null]) ∧
    (Segment.name ":-1:").place (.array [.null]) =
      (Segment.slice ⟨none, some (-1), none⟩).place (.array [.null]) ∧
    (Segment.name "1:2:3:4").place (.array [.null]) = .error (.kindMismatch "1:2:3:4" .array) := by
  have hseven : KeyExpr.DigitRun ['0', '0', '7'] 7 := by decide
  have hone : KeyExpr.DigitRun ['1'] 1 := by decide
  have hindex : Text.Denotes "-007".toList (-7 : Int64).toInt := .minus hseven
  have hslice : Slice.Denotes ":-1:".toList ⟨none, some (-1), none⟩ :=
    .three .absent (.bound (i := -1) (.minus hone)) .absent
  exact ⟨hindex, hslice, (place_name_array "-007" [.null]).2.2.1 _ hindex,
    (place_name_array ":-1:" [.null]).2.2.2.1 _ hslice, rfl⟩

end Segment

end JsonKeys
