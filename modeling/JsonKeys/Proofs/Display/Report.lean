import JsonKeys.Display.Basic
import JsonKeys.Proofs.Display.Bytes
import JsonKeys.Proofs.Display.JsonText

/-!
Colour is decoration. Whatever is printed, taking the sequences out of what is printed in colour
leaves what is printed without; the text that is coloured must have no escape characters of its own.
-/
namespace JsonKeys

open Ink (Dresses uncolored)

/-- Everything that is printed in colour. -/
inductive Report where
  | jsonText (text : String)
  | numberedKey (key : NumberedKey)
  | profiles (profiles : List Profile)
  | lengths (lengths : ArrayLengths)
  | notice (name message : String)
  | failure (failure : Failure)

/-- The strings in the paths, and the names in the document. -/
def Origin.strings (origin : Origin) : List String :=
  origin.paths.flatMap (·.flatMap Segment.strings) ++ origin.document.memberNames

def Failure.strings : Failure → List String
  | unlisted token => [token]
  | fault f origin => f.strings ++ origin.elim [] Origin.strings

def ArrayLengths.strings : ArrayLengths → List String
  | root _ => []
  | members lengths => lengths.map Prod.fst

namespace Report

/-- The strings that a report is made of. -/
def strings : Report → List String
  | jsonText text => [text]
  | numberedKey key => [key.path]
  | profiles ps => ps.map Profile.path
  | lengths ls => ls.strings
  | notice name message => [name, message]
  | failure f => f.strings

/-- What is printed, a text or a list of lines. -/
def print (report : Report) (ink : Ink) : List String :=
  match report with
  | jsonText text => [Display.jsonText text ink]
  | numberedKey key => [Display.numberedKey key ink]
  | profiles ps => Display.profiles ps ink
  | lengths ls => Display.lengths ls ink
  | notice name message => [Display.notice name message ink]
  | failure f => [Display.failure f ink]

end Report

namespace Display

theorem dresses_numberedKey {key : NumberedKey} (h : EscapeFree key.path) :
    Dresses (numberedKey key ⟨true⟩) (numberedKey key ⟨false⟩) :=
  ((Dresses.paint .yellow (key.escapeFree_numberText)).plain (by decide)).plain h

theorem map_uncolored_profiles {ps : List Profile} (h : ∀ p ∈ ps, EscapeFree p.path) :
    (profiles ps ⟨true⟩).map uncolored = profiles ps ⟨false⟩ := by
  refine Dresses.map_uncolored fun p hp => ?_
  have hpath := Dresses.paint .white ((h p hp).padRight (Column.width (ps.map Profile.path)))
  have hkinds := Dresses.paint .cyan p.escapeFree_text
  exact (hpath.plain (by decide)).append hkinds

theorem map_uncolored_lengths {ls : ArrayLengths} (h : ∀ name ∈ ls.strings, EscapeFree name) :
    (lengths ls ⟨true⟩).map uncolored = lengths ls ⟨false⟩ := by
  cases ls with
  | root length =>
    have hlength := Dresses.paint .white (escapeFree_numeral length)
    simp only [lengths, ArrayLengths.lines, List.map_cons, List.map_nil, hlength.uncolored_eq]
  | members ms =>
    refine Dresses.map_uncolored fun m hm => ?_
    have hname : EscapeFree m.1 := h m.1 (List.mem_map_of_mem hm)
    have hkey := Dresses.paint .cyan (hname.padRight (Column.width (ms.map Prod.fst)))
    have hlength := Dresses.paint .white (escapeFree_numeral m.2)
    exact (hkey.plain (by decide)).append hlength

theorem dresses_notice {name message : String} (hname : EscapeFree name)
    (hmessage : EscapeFree message) :
    Dresses (notice name message ⟨true⟩) (notice name message ⟨false⟩) :=
  (((Dresses.bold .red hname).plain (by decide)).append (.paint .white hmessage)).plain (by decide)

/-! ### Failures -/

theorem dresses_rule (width : Nat) : Dresses (rule width ⟨true⟩) (rule width ⟨false⟩) := by
  have hdashes : EscapeFree (String.ofList (List.replicate width '-')) :=
    escapeFree_ofList.mpr (escape_notMem_replicate (by decide))
  exact (Dresses.paint .yellow hdashes).plain (by decide)

theorem dresses_titled {above above' title title' : String} (habove : Dresses above above')
    (htitle : Dresses title title') : Dresses (titled above title) (titled above' title') :=
  ((habove.append htitle).plain (by decide)).append habove

theorem dresses_originLines {origin : Origin} (h : ∀ s ∈ origin.strings, EscapeFree s) :
    Dresses (originLines origin ⟨true⟩) (originLines origin ⟨false⟩) := by
  have hpath : ∀ path ∈ origin.paths, EscapeFree path.text := fun path hpath =>
    Path.escapeFree_text fun segment hsegment s hs =>
      h s (List.mem_append_left _
        (List.mem_flatMap.mpr ⟨path, hpath, List.mem_flatMap.mpr ⟨segment, hsegment, hs⟩⟩))
  have hpaths : EscapeFree (", ".intercalate (origin.paths.map Path.text)) := by
    refine EscapeFree.intercalate (by decide) fun text htext => ?_
    obtain ⟨path, hmem, rfl⟩ := List.mem_map.mp htext
    exact hpath path hmem
  have hlist : EscapeFree ("[" ++ ", ".intercalate (origin.paths.map Path.text) ++ "]") :=
    (EscapeFree.append (by decide) hpaths).append (by decide)
  have hname : EscapeFree origin.operation.name := by cases origin.operation <;> decide
  have hoperation :=
    (Dresses.of_escapeFree (by decide : EscapeFree "Operation: ")).append (.paint .red hname)
  have hitem :=
    ((hoperation.plain (by decide : EscapeFree "\n")).plain
      (by decide : EscapeFree "Item #: ")).append (.paint .red (escapeFree_numeral origin.item))
  exact (((hitem.plain (by decide)).plain (by decide)).append (.paint .red hlist)).plain (by decide)

/-- The keys that are there, below what is not. -/
theorem dresses_absence {name missing : String} (hname : EscapeFree name)
    (hmissing : EscapeFree missing) {origin : Origin} (h : ∀ s ∈ origin.strings, EscapeFree s) :
    Dresses (absence name missing origin ⟨true⟩) (absence name missing origin ⟨false⟩) := by
  have hnames : ∀ name ∈ origin.document.memberNames, EscapeFree name := fun name hname =>
    h name (List.mem_append_right _ hname)
  have hkey : ∀ key ∈ NumberedKey.ofPaths (outline origin.document false), EscapeFree key.line := by
    intro key hkey
    obtain ⟨p, hp, rfl⟩ := List.mem_map.mp hkey
    have hpath : EscapeFree p.1 := escapeFree_of_mem_outline hnames (List.fst_mem_of_mem_zipIdx hp)
    exact ((NumberedKey.escapeFree_numberText _).append (by decide)).append hpath
  have hkeys := Dresses.join fun key hkey' =>
    (Dresses.paint .white (hkey key hkey')).plain (by decide : EscapeFree "\n")
  have htitle := (Dresses.of_escapeFree (hname.append (by decide : EscapeFree ": "))).append
    (.bold .red hmissing)
  have hrule := dresses_rule 39
  have habsence := (dresses_titled hrule htitle).append (dresses_originLines h)
  exact (habsence.append (dresses_titled hrule (.of_escapeFree (by decide)))).append hkeys

/-- A fault that no operation has taken up is a line of its name and its detail. -/
theorem failure_none (f : Fault) (ink : Ink) :
    failure (.fault f none) ink = notice f.name f.detail ink := by
  rw [failure]
  · rfl
  · rintro g origin ⟨⟩

theorem dresses_failure {f : Failure} (h : ∀ s ∈ f.strings, EscapeFree s) :
    Dresses (failure f ⟨true⟩) (failure f ⟨false⟩) := by
  cases f with
  | unlisted token =>
    have htoken : EscapeFree token := h token List.mem_cons_self
    exact dresses_notice (by decide : EscapeFree "KeyNumberOutOfRange") htoken
  | fault f origin =>
    have hf : ∀ s ∈ f.strings, EscapeFree s := fun s hs => h s (List.mem_append_left _ hs)
    cases origin with
    | none =>
      rw [failure_none, failure_none]
      exact dresses_notice (f.escapeFree_name) (Fault.escapeFree_detail hf)
    | some origin =>
      have horigin : ∀ s ∈ origin.strings, EscapeFree s :=
        fun s hs => h s (List.mem_append_right _ hs)
      cases f with
      | missingMember name =>
        rw [failure, failure]
        exact dresses_absence (Fault.escapeFree_name _) (hf name List.mem_cons_self) horigin
      | indexOutOfRange index length =>
        rw [failure, failure]
        exact dresses_absence (Fault.escapeFree_name _)
          (escapeFree_signedNumeral index.toInt) horigin
      | kindMismatch segment found =>
        have hmessage : EscapeFree (Fault.kindMismatch segment found).message :=
          EscapeFree.append (by decide) (Fault.escapeFree_kindText segment found)
        rw [failure, failure]
        exact (dresses_titled (dresses_rule 40) (.bold .red hmessage)).append
          (dresses_originLines horigin)

end Display

namespace Report

theorem map_uncolored_print {report : Report} (h : ∀ s ∈ report.strings, EscapeFree s) :
    (report.print ⟨true⟩).map uncolored = report.print ⟨false⟩ := by
  have hsingle : ∀ {dressed bare : String}, Dresses dressed bare →
      [dressed].map uncolored = [bare] :=
    fun hdresses => congrArg (fun text => [text]) hdresses.uncolored_eq
  cases report with
  | jsonText text => exact hsingle (Display.dresses_jsonText (h text List.mem_cons_self))
  | numberedKey key => exact hsingle (Display.dresses_numberedKey (h key.path List.mem_cons_self))
  | profiles ps =>
    exact Display.map_uncolored_profiles fun p hp => h p.path (List.mem_map_of_mem hp)
  | lengths ls => exact Display.map_uncolored_lengths h
  | notice name message =>
    have hmessage : EscapeFree message := h message (List.mem_cons_of_mem name List.mem_cons_self)
    exact hsingle (Display.dresses_notice (h name List.mem_cons_self) hmessage)
  | failure f => exact hsingle (Display.dresses_failure h)

/-- Colour is decoration: without its sequences, what is printed in colour is what is printed
without. On JSON text, which may be torn or no JSON at all, that is the text itself, and every
string in it is cut off between two characters where the search in its bytes ends. -/
theorem color_only_decorates :
    (∀ report : Report, (∀ s ∈ report.strings, EscapeFree s) →
      (report.print ⟨true⟩).map uncolored = report.print ⟨false⟩) ∧
    (∀ text : String, EscapeFree text → uncolored (Display.jsonText text ⟨true⟩) = text) ∧
    ∀ cs : List Char,
      (Lexeme.utf8 ('"' :: cs)).splitAt (Lexeme.endOfString (Lexeme.utf8 ('"' :: cs)) 1) =
        (Lexeme.utf8 ('"' :: (Lexeme.splitString cs).1),
          Lexeme.utf8 (Lexeme.splitString cs).2) := by
  refine ⟨fun report => map_uncolored_print, fun text h => ?_, Lexeme.splitAt_endOfString⟩
  exact (Display.dresses_jsonText h).uncolored_eq

/-- A failure in a record with a dot in one of its names, and a text that breaks off behind a
backslash. -/
theorem color_only_decorates_torn :
    let record : Value := .object [("a.b", .null), ("é", .array [.bool true])]
    let report : Report :=
      .failure (.fault (.missingMember "c") (some ⟨.get, 3, [.name "c"], [[.name "c"]], record⟩))
    let text : String := "\x7b\"é\\é\\"
    (∀ s ∈ report.strings, EscapeFree s) ∧
      (report.print ⟨true⟩).map uncolored = report.print ⟨false⟩ ∧
      EscapeFree text ∧ uncolored (Display.jsonText text ⟨true⟩) = text := by
  intro record report text
  have hstrings : report.strings = ["c", "c", "a.b", "é"] := rfl
  have hreport : ∀ s ∈ report.strings, EscapeFree s := by
    rw [hstrings]
    decide
  have htext : EscapeFree text := by decide
  exact ⟨hreport, color_only_decorates.1 report hreport, htext, color_only_decorates.2.1 text htext⟩

end Report

end JsonKeys
