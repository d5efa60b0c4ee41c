import JsonKeys.Place.Basic
import JsonKeys.Proofs.Text.Decimal

/-!
Indexes and slices by name. An array reads the text of an index or a slice as that same index or
slice, so that a segment may be given by its text.
-/
namespace JsonKeys

namespace Slice

theorem fields_of_notMem {cs : List Char} (h : ':' ∉ cs) : fields cs = [cs] := by
  induction cs with
  | nil => rfl
  | cons c cs ih =>
    simp only [List.mem_cons, not_or] at h
    rw [fields, if_neg (Ne.symm h.1), ih h.2]

/-- A text is split at its first colon. -/
theorem fields_append {cs : List Char} (h : ':' ∉ cs) (rest : List Char) :
    fields (cs ++ ':' :: rest) = cs :: fields rest := by
  induction cs with
  | nil => simp [fields]
  | cons c cs ih =>
    simp only [List.mem_cons, not_or] at h
    rw [List.cons_append, fields, if_neg (Ne.symm h.1), ih h.2]

theorem isDigit_or_minus_of_mem_boundText {bound : Option Int64} {c : Char}
    (h : c ∈ boundText bound) :
    c.isDigit ∨ c = '-' := by
  cases bound with
  | none => cases h
  | some n => exact Text.isDigit_or_minus_of_mem_intText h

theorem colon_notMem_boundText (bound : Option Int64) : ':' ∉ boundText bound := by
  intro h
  have hclass := isDigit_or_minus_of_mem_boundText h
  revert hclass
  decide

theorem bound?_boundText (bound : Option Int64) : bound? (boundText bound) = some bound := by
  cases bound with
  | none => rfl
  | some n =>
    have hne : (Text.intText n.toInt).isEmpty = false := by simp [Text.intText_ne_nil]
    simp [boundText, bound?, hne, Text.readInt64?_intText]

theorem ofText?_text (s : Slice) : ofText? s.text.toList = some s := by
  obtain ⟨start, stop, step⟩ := s
  have hstart := colon_notMem_boundText start
  have hstop := colon_notMem_boundText stop
  cases step with
  | none =>
    have hfields : fields (boundText start ++ ':' :: boundText stop) =
        [boundText start, boundText stop] := by
      rw [fields_append hstart, fields_of_notMem hstop]
    simp [text, ofText?, hfields, bound?_boundText]
  | some n =>
    have hstep := colon_notMem_boundText (some n)
    have hfields :
        fields (boundText start ++ ':' :: (boundText stop ++ ':' :: boundText (some n))) =
          [boundText start, boundText stop, boundText (some n)] := by
      rw [fields_append hstart, fields_append hstop, fields_of_notMem hstep]
    have htext : (text ⟨start, stop, some n⟩).toList =
        boundText start ++ ':' :: (boundText stop ++ ':' :: boundText (some n)) := by
      simp [text, boundText]
    simp [htext, ofText?, hfields, bound?_boundText]

theorem colon_mem_text (s : Slice) : ':' ∈ s.text.toList := by simp [text]

theorem class_of_mem_text {s : Slice} {c : Char} (h : c ∈ s.text.toList) :
    c.isDigit ∨ c = '-' ∨ c = ':' := by
  obtain ⟨start, stop, step⟩ := s
  simp only [text, String.toList_ofList, List.mem_append, List.mem_cons] at h
  rcases h with (h | rfl | h) | h
  · exact (isDigit_or_minus_of_mem_boundText h).imp_right .inl
  · exact .inr (.inr rfl)
  · exact (isDigit_or_minus_of_mem_boundText h).imp_right .inl
  · cases step with
    | none => cases h
    | some n =>
      rcases List.mem_cons.mp h with rfl | h
      · exact .inr (.inr rfl)
      · exact (Text.isDigit_or_minus_of_mem_intText h).imp_right .inl

end Slice

namespace Segment

theorem index_ne_name (i : Int64) (name : String) : index i ≠ .name name := by
  intro h
  cases h

theorem slice_ne_name (s : Slice) (name : String) : slice s ≠ .name name := by
  intro h
  cases h

/-- The text of an index or a slice has nothing in it but digits, dashes and colons. -/
theorem class_of_mem_text {segment : Segment} (h : ∀ name, segment ≠ .name name) {c : Char}
    (hc : c ∈ segment.text.toList) : c.isDigit ∨ c = '-' ∨ c = ':' := by
  cases segment with
  | name text => exact absurd rfl (h text)
  | index i =>
    rw [text, Text.signedNumeral, String.toList_ofList] at hc
    exact (Text.isDigit_or_minus_of_mem_intText hc).imp_right .inl
  | slice s => exact Slice.class_of_mem_text hc

theorem toList_text_ne_nil {segment : Segment} (h : ∀ name, segment ≠ .name name) :
    segment.text.toList ≠ [] := by
  cases segment with
  | name text => exact absurd rfl (h text)
  | index i => simp [text, Text.signedNumeral, Text.intText_ne_nil]
  | slice s => exact List.ne_nil_of_mem s.colon_mem_text

end Segment

/-- A name in the characters of a subscript is read as a slice if it has a colon, and else as an
index. -/
theorem Subscript.ofName?_of_class {name : String} (hne : name.toList ≠ [])
    (hclass : ∀ c ∈ name.toList, c.isDigit ∨ c = '-' ∨ c = ':') :
    ofName? name = if ':' ∈ name.toList then (Slice.ofText? name.toList).map slice
      else (Text.readInt64? name.toList).map index := by
  have hall : name.toList.all (fun c => c.isDigit || c == '-' || c == ':') := by
    simpa [List.all_eq_true, or_assoc] using hclass
  simp [ofName?, hne, hall]

/-- The text of an index or a slice stands for it. -/
theorem Segment.subscript?_text (segment : Segment) :
    (Segment.name segment.text).subscript? = segment.subscript? := by
  cases segment with
  | name text => rfl
  | index i =>
    have hname := index_ne_name i
    have hcolon : ':' ∉ (Segment.index i).text.toList := by
      rw [text, Text.signedNumeral, String.toList_ofList]
      exact Slice.colon_notMem_boundText (some i)
    rw [subscript?,
      Subscript.ofName?_of_class (toList_text_ne_nil hname) fun c => class_of_mem_text hname,
      if_neg hcolon, text, Text.signedNumeral, String.toList_ofList, Text.readInt64?_intText]
    rfl
  | slice s =>
    have hname := slice_ne_name s
    have hcolon : ':' ∈ (Segment.slice s).text.toList := s.colon_mem_text
    rw [subscript?,
      Subscript.ofName?_of_class (toList_text_ne_nil hname) fun c => class_of_mem_text hname,
      if_pos hcolon, text, Slice.ofText?_text]
    rfl

end JsonKeys
