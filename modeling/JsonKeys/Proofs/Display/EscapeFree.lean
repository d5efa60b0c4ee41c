import JsonKeys.Display.Columns
import JsonKeys.Failure
import JsonKeys.Outline.Numbering
import JsonKeys.Proofs.Number.Text
import JsonKeys.Proofs.Outline.Positions
import Mathlib.Tactic.SplitIfs

/-!
Texts without escape characters. The texts that are put together of such texts have none either, and
the numbers, kinds and quotes in a report never have one.
-/
namespace JsonKeys

/-- A text without the character that the sequences of a terminal begin with. -/
def EscapeFree (text : String) : Prop := '\x1b' ∉ text.toList

instance : DecidablePred EscapeFree :=
  fun text => inferInstanceAs (Decidable ('\x1b' ∉ text.toList))

theorem escapeFree_ofList {cs : List Char} : EscapeFree (String.ofList cs) ↔ '\x1b' ∉ cs := by
  rw [EscapeFree, String.toList_ofList]

theorem escapeFree_append {text more : String} :
    EscapeFree (text ++ more) ↔ EscapeFree text ∧ EscapeFree more := by
  rw [EscapeFree, String.toList_append, List.mem_append, not_or, EscapeFree, EscapeFree]

theorem escape_notMem_replicate {c : Char} (h : '\x1b' ≠ c) {n : Nat} :
    '\x1b' ∉ List.replicate n c := fun hmem =>
  h (List.mem_replicate.mp hmem).2

namespace EscapeFree

theorem append {text more : String} (h : EscapeFree text) (hmore : EscapeFree more) :
    EscapeFree (text ++ more) :=
  escapeFree_append.mpr ⟨h, hmore⟩

theorem intercalate {separator : String} (hseparator : EscapeFree separator) {texts : List String}
    (h : ∀ text ∈ texts, EscapeFree text) : EscapeFree (separator.intercalate texts) := by
  induction texts with
  | nil =>
    rw [String.intercalate_nil]
    decide
  | cons text texts ih =>
    have htext : EscapeFree text := h text List.mem_cons_self
    have htexts : EscapeFree (separator.intercalate texts) :=
      ih fun t ht => h t (List.mem_cons_of_mem text ht)
    cases texts with
    | nil => rwa [String.intercalate_singleton]
    | cons next texts =>
      rw [String.intercalate_cons_cons]
      exact (htext.append hseparator).append htexts

theorem padRight {text : String} (h : EscapeFree text) (width : Nat) :
    EscapeFree (Column.padRight width text) :=
  h.append (escapeFree_ofList.mpr (escape_notMem_replicate (by decide)))

end EscapeFree

/-! ### Numbers and quotes -/

theorem escape_notMem_natText (n : Nat) : '\x1b' ∉ Text.natText n := fun h =>
  absurd (Text.isDigit_of_mem_natText h) (by decide)

theorem NumberText.escape_notMem {cs : List Char} (h : NumberText cs) : '\x1b' ∉ cs := fun hmem =>
  absurd (h.isPart _ hmem) (by decide)

theorem escapeFree_numeral (n : Nat) : EscapeFree (Text.numeral n) :=
  escapeFree_ofList.mpr (escape_notMem_natText n)

theorem escapeFree_signedNumeral (n : Int) : EscapeFree (Text.signedNumeral n) :=
  escapeFree_ofList.mpr (NumberText.intText n).escape_notMem

theorem escapeFree_summaryText (n : Number) : EscapeFree n.summaryText :=
  escapeFree_ofList.mpr (n.numberText_write .summary).escape_notMem

theorem escape_ne_digitChar : ∀ n < 16, '\x1b' ≠ Nat.digitChar n := by decide

theorem escape_notMem_toDigits {base : Nat} (hbase : 1 < base) (hle : base ≤ 16) (n : Nat) :
    '\x1b' ∉ Nat.toDigits base n := by
  induction n using Nat.strongRecOn with
  | ind n ih =>
    by_cases hlt : n < base
    · rw [Nat.toDigits_of_lt_base hlt, List.mem_singleton]
      exact escape_ne_digitChar n (by omega)
    · have hpos : 0 < n := by omega
      have hmod : n % base < base := Nat.mod_lt n (by omega)
      rw [Nat.toDigits_of_base_le hbase (by omega), List.mem_append, List.mem_singleton]
      exact not_or.mpr ⟨ih (n / base) (Nat.div_lt_self hpos hbase),
        escape_ne_digitChar _ (by omega)⟩

/-- An escape character does not print, so that in quotes its number stands for it. -/
theorem escapeFree_quoted (text : String) : EscapeFree (Text.quoted text) := by
  have hchar : ∀ c : Char, '\x1b' ∉ Text.quotedChar c := by
    intro c
    unfold Text.quotedChar
    split_ifs with h0 ht hn hr hspecial hprint
    · decide
    · decide
    · decide
    · decide
    · have hne : '\x1b' ≠ c := by
        rintro rfl
        exact absurd hspecial (by decide)
      simp [hne]
    · have hne : '\x1b' ≠ c := by
        rintro rfl
        exact absurd hprint (by decide)
      simp [hne]
    · have hdigits := escape_notMem_toDigits (by decide : 1 < 16) le_rfl c.toNat
      simp [hdigits]
  rw [Text.quoted, escapeFree_ofList]
  simp only [List.mem_cons, List.mem_append, List.mem_flatMap, not_or, not_exists, not_and]
  exact ⟨⟨by decide, fun c _ => hchar c⟩, by decide⟩

/-! ### Paths -/

theorem EscapeFree.escapeDots {name : String} (h : EscapeFree name) :
    EscapeFree (Path.escapeDots name) := by
  have hchars : ∀ cs, '\x1b' ∉ cs → '\x1b' ∉ Path.escapeChars cs := by
    intro cs hcs
    induction cs with
    | nil => exact hcs
    | cons c cs ih =>
      rw [List.mem_cons, not_or] at hcs
      unfold Path.escapeChars
      split <;> simp [hcs.1, ih hcs.2]
  exact escapeFree_ofList.mpr (hchars _ h)

theorem Slice.escapeFree_text (s : Slice) : EscapeFree s.text := by
  have hbound : ∀ bound, '\x1b' ∉ Slice.boundText bound := by
    intro bound
    cases bound with
    | none => exact List.not_mem_nil
    | some n => exact (NumberText.intText n.toInt).escape_notMem
  have hstep : '\x1b' ∉ s.step.elim [] fun step => ':' :: Text.intText step.toInt := by
    cases s.step with
    | none => exact List.not_mem_nil
    | some n => simpa using (NumberText.intText n.toInt).escape_notMem
  rw [Slice.text, escapeFree_ofList, List.mem_append, List.mem_append, List.mem_cons]
  simp [hbound, hstep]

/-- The strings in a segment. -/
def Segment.strings : Segment → List String
  | name text => [text]
  | _ => []

theorem Segment.escapeFree_segmentText {segment : Segment}
    (h : ∀ s ∈ segment.strings, EscapeFree s) :
    EscapeFree (Path.segmentText segment) := by
  cases segment with
  | name text => exact (h text List.mem_cons_self).escapeDots
  | index i => exact escapeFree_signedNumeral i.toInt
  | slice s => exact s.escapeFree_text

theorem Path.escapeFree_text {path : Path}
    (h : ∀ segment ∈ path, ∀ s ∈ segment.strings, EscapeFree s) :
    EscapeFree path.text := by
  refine EscapeFree.intercalate (by decide) fun text htext => ?_
  obtain ⟨segment, hsegment, rfl⟩ := List.mem_map.mp htext
  exact Segment.escapeFree_segmentText (h segment hsegment)

theorem Node.escapeFree_childPath {parent segment : String} (hparent : EscapeFree parent)
    (hsegment : EscapeFree segment) : EscapeFree (childPath parent segment) := by
  unfold childPath
  split
  · exact hsegment
  · exact (hparent.append (by decide)).append hsegment

theorem escapeFree_spell {names : List String} (h : ∀ name ∈ names, EscapeFree name) :
    EscapeFree (spell names) := by
  induction names using List.reverseRecOn with
  | nil => exact (by decide : EscapeFree "")
  | append_singleton names name ih =>
    have hnames : EscapeFree (spell names) := ih fun n hn => h n (List.mem_append_left _ hn)
    have hname : EscapeFree name := h name (List.mem_append_right _ (List.mem_singleton_self name))
    rw [spell_append_singleton]
    exact Node.escapeFree_childPath hnames hname.escapeDots

/-- The outline of a document is made of the names of its members. -/
theorem escapeFree_of_mem_outline {document : Value}
    (h : ∀ name ∈ document.memberNames, EscapeFree name) {deep : Bool} {path : String}
    (hpath : path ∈ outline document deep) : EscapeFree path := by
  obtain ⟨names, ⟨record, hrecord, v, hv⟩, rfl, -⟩ := Value.exists_of_mem_outline hpath
  refine escapeFree_spell fun name hname => ?_
  rcases hv.mem_memberNames name hname with rfl | hmem
  · decide
  · exact h name (Value.memberNames_subset_of_mem_records hrecord hmem)

/-! ### Summaries -/

theorem Summary.escapeFree_extentText {α : Type} {kind measure : String} (hkind : EscapeFree kind)
    (hmeasure : EscapeFree measure) (e : Extent α) (same : Bool) {write : α → String}
    (hwrite : ∀ a, EscapeFree (write a)) :
    EscapeFree (extentText kind measure e same write) := by
  unfold extentText
  split <;> simp +decide only [escapeFree_append, hkind, hmeasure, hwrite, and_self]

theorem Summary.escapeFree_line (s : Summary) : EscapeFree s.line := by
  cases s with
  | null => exact (by decide : EscapeFree "null")
  | bool b => cases b <;> exact (by decide)
  | object e => exact escapeFree_extentText (by decide) (by decide) e _ escapeFree_numeral
  | array e => exact escapeFree_extentText (by decide) (by decide) e _ escapeFree_numeral
  | text e => exact escapeFree_extentText (by decide) (by decide) e _ escapeFree_numeral
  | number e => exact escapeFree_extentText (by decide) (by decide) e _ escapeFree_summaryText

theorem Profile.escapeFree_text (p : Profile) : EscapeFree p.text := by
  refine EscapeFree.intercalate (by decide) fun text htext => ?_
  obtain ⟨s, -, rfl⟩ := List.mem_map.mp htext
  exact s.escapeFree_line

/-! ### Keys and faults -/

theorem NumberedKey.escapeFree_numberText (key : NumberedKey) : EscapeFree key.numberText := by
  rw [numberText, escapeFree_ofList, padLeft, List.mem_append]
  exact not_or.mpr ⟨escape_notMem_replicate (by decide), escape_notMem_natText _⟩

/-- The strings in a fault. -/
def Fault.strings : Fault → List String
  | missingMember name => [name]
  | indexOutOfRange _ _ => []
  | kindMismatch segment _ => [segment]

namespace Fault

theorem escapeFree_name (f : Fault) : EscapeFree f.name := by
  cases f with
  | missingMember => exact (by decide : EscapeFree "KeyNotFound")
  | indexOutOfRange => exact (by decide : EscapeFree "IndexOutOfRange")
  | kindMismatch => exact (by decide : EscapeFree "KeyTypeError")

theorem escapeFree_kindText (segment : String) (found : Kind) :
    EscapeFree (kindText segment found) := by
  have hkind : EscapeFree found.name := by cases found <;> decide
  exact ((escapeFree_quoted segment).append (by decide)).append hkind

theorem escapeFree_detail {f : Fault} (h : ∀ s ∈ f.strings, EscapeFree s) :
    EscapeFree f.detail := by
  cases f with
  | missingMember name => exact h name List.mem_cons_self
  | indexOutOfRange index length =>
    exact (((escapeFree_signedNumeral index.toInt).append (by decide)).append
      (escapeFree_numeral length)).append
      (by decide)
  | kindMismatch segment found => exact escapeFree_kindText segment found

end Fault

end JsonKeys
