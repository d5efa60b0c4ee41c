import JsonKeys.Proofs.Display.Color
import JsonKeys.Proofs.Display.Scan
import Mathlib.Data.List.Basic

/-!
Coloured JSON text. Colouring adds sequences around lexemes and nothing else, on any text at all. On
a written value the lexemes are those that it was written of, so that each kind of token has its own
colour.
-/
namespace JsonKeys

namespace Lexeme

/-- The lexemes of a text in a row are the text. -/
theorem flatMap_text_scan (cs : List Char) : (scan cs).flatMap text = cs := by
  fun_induction scan cs with
  | case1 => rfl
  | case2 cs ih =>
    rw [List.flatMap_cons, ih]
    exact congrArg ('"' :: ·) (splitString_append cs)
  | case3 c cs hquote hnumber ih =>
    rw [List.flatMap_cons, ih]
    exact congrArg (c :: ·) List.takeWhile_append_dropWhile
  | case4 c cs hquote hnumber hword ih =>
    rw [List.flatMap_cons, ih]
    exact congrArg (c :: ·) List.takeWhile_append_dropWhile
  | case5 c cs hquote hnumber hword ih =>
    rw [List.flatMap_cons, ih]
    rfl

theorem escapeFree_of_mem_scan {cs : List Char} (h : '\x1b' ∉ cs) {lexeme : Lexeme}
    (hlexeme : lexeme ∈ scan cs) :
    '\x1b' ∉ lexeme.text := by
  intro hmem
  apply h
  rw [← flatMap_text_scan cs]
  exact List.mem_flatMap.mpr ⟨lexeme, hlexeme, hmem⟩

/-- A lexeme in blue, green, cyan or magenta, or bare. -/
def dyed (lexeme : Lexeme) : List Char :=
  match lexeme.kind with
  | .name => Ink.styled ['3', '4'] lexeme.text
  | .string => Ink.styled ['3', '2'] lexeme.text
  | .number => Ink.styled ['3', '6'] lexeme.text
  | .word => Ink.styled ['3', '5'] lexeme.text
  | .mark => lexeme.text

theorem paint_colored {lexeme : Lexeme} (h : '\x1b' ∉ lexeme.text) :
    lexeme.paint ⟨true⟩ = lexeme.dyed := by
  obtain ⟨kind, cs⟩ := lexeme
  cases kind with
  | mark => rfl
  | _ => exact Ink.wrap_colored _ h

theorem strip_dyed {lexeme : Lexeme} (h : '\x1b' ∉ lexeme.text) (rest : List Char) :
    Ink.strip (lexeme.dyed ++ rest) = lexeme.text ++ Ink.strip rest := by
  obtain ⟨kind, cs⟩ := lexeme
  cases kind with
  | mark => exact Ink.strip_append_of_escapeFree h rest
  | _ => exact Ink.strip_styled (List.all_eq_true.mp (by decide)) h rest

theorem strip_flatMap_dyed {lexemes : List Lexeme} (h : ∀ lexeme ∈ lexemes, '\x1b' ∉ lexeme.text)
    (rest : List Char) :
    Ink.strip (lexemes.flatMap dyed ++ rest) = lexemes.flatMap text ++ Ink.strip rest := by
  induction lexemes with
  | nil => rfl
  | cons lexeme lexemes ih =>
    have hlexemes := ih fun l hl => h l (List.mem_cons_of_mem lexeme hl)
    have hlexeme := strip_dyed (h lexeme List.mem_cons_self) (lexemes.flatMap dyed ++ rest)
    rw [List.flatMap_cons, List.append_assoc, hlexeme, hlexemes, List.flatMap_cons,
      List.append_assoc]

theorem flatMap_dyed_pieces (lexeme : Lexeme) : lexeme.pieces.flatMap dyed = lexeme.dyed := by
  obtain ⟨kind, cs⟩ := lexeme
  cases kind with
  | mark =>
    have hmarks : (cs.map fun c => mark [c]).flatMap dyed = cs := by
      rw [List.flatMap_map]
      exact List.flatMap_singleton' cs
    exact hmarks
  | _ => exact List.append_nil _

/-- What the lexemes of written values are. -/
inductive Written : Lexeme → Prop
  | mark {cs : List Char} (h : ∀ c ∈ cs, c ∈ markChars) : Written (mark cs)
  | name (text : String) : Written ⟨.name, literal text⟩
  | string (text : String) : Written ⟨.string, literal text⟩
  | number {cs : List Char} (h : NumberText cs) : Written ⟨.number, cs⟩
  | word {cs : List Char} (h : WordText cs) : Written ⟨.word, cs⟩

theorem escape_notMem_literal (text : String) : '\x1b' ∉ literal text := by
  have hescaped : ∀ c : Char, '\x1b' ∉ escaped c := by
    intro c
    unfold escaped
    split_ifs with hspecial hb hf hn hr ht hcontrol
    · have hne : '\x1b' ≠ c := by
        rintro rfl
        exact absurd hspecial (by decide)
      simp [hne]
    · decide
    · decide
    · decide
    · decide
    · decide
    · have hhigh := escape_ne_digitChar (c.toNat / 16) (by omega)
      have hlow := escape_ne_digitChar (c.toNat % 16) (by omega)
      simp [hhigh, hlow]
    · rw [List.mem_singleton]
      rintro rfl
      exact hcontrol (by decide)
  simp only [literal, List.mem_cons, List.mem_append, List.mem_flatMap, not_or, not_exists, not_and]
  exact ⟨⟨by decide, fun c _ => hescaped c⟩, by decide⟩

theorem Written.escape_notMem {lexeme : Lexeme} (h : lexeme.Written) : '\x1b' ∉ lexeme.text := by
  cases h with
  | mark h => exact fun hmem => absurd (h _ hmem) (by decide)
  | name text => exact escape_notMem_literal text
  | string text => exact escape_notMem_literal text
  | number h => exact h.escape_notMem
  | word h => exact fun hmem => absurd (h.isAlpha _ hmem) (by decide)

end Lexeme

/-- The colours of a text without escape characters: its lexemes, each dyed by its kind. -/
theorem Display.jsonText_colored {text : String} (h : EscapeFree text) :
    Display.jsonText text ⟨true⟩ =
      String.ofList ((Lexeme.scan text.toList).flatMap Lexeme.dyed) := by
  have hpaint : ∀ lexeme ∈ Lexeme.scan text.toList, lexeme.paint ⟨true⟩ = lexeme.dyed :=
    fun lexeme hlexeme => Lexeme.paint_colored (Lexeme.escapeFree_of_mem_scan h hlexeme)
  rw [Display.jsonText, if_pos rfl, List.flatMap_congr hpaint]

/-- Taking the colours off gives back the text. -/
theorem Display.dresses_jsonText {text : String} (h : EscapeFree text) :
    Ink.Dresses (jsonText text ⟨true⟩) (jsonText text ⟨false⟩) := by
  intro rest
  have hstrip := Lexeme.strip_flatMap_dyed (fun _ => Lexeme.escapeFree_of_mem_scan h) rest
  rw [Lexeme.flatMap_text_scan] at hstrip
  rw [jsonText_colored h, String.toList_ofList, hstrip]
  rfl

namespace Value

open Lexeme (Written)

/-- The lexemes between two brackets, and the brackets. -/
theorem forall_written_enclosed {opening closing : Char} {lexemes : List Lexeme}
    {indent depth : Nat} {isEmpty : Bool} (hopening : opening ∈ Lexeme.markChars)
    (hclosing : closing ∈ Lexeme.markChars) (h : ∀ l ∈ lexemes, l.Written) :
    ∀ l ∈ .mark [opening] :: lexemes ++
      [.mark ((if isEmpty then [] else lineBreak indent depth) ++ [closing])],
      l.Written := by
  have hfirst : Written (.mark [opening]) := .mark (List.forall_mem_singleton.mpr hopening)
  have hlast : Written (.mark ((if isEmpty then [] else lineBreak indent depth) ++ [closing])) :=
    .mark (List.forall_mem_append.mpr
      ⟨fun _ => Lexeme.mem_markChars_of_closing, List.forall_mem_singleton.mpr hclosing⟩)
  exact List.forall_mem_append.mpr
    ⟨List.forall_mem_cons.mpr ⟨hfirst, h⟩, List.forall_mem_singleton.mpr hlast⟩

mutual

theorem written_of_mem_lexemes (indent depth : Nat) :
    ∀ v : Value, ∀ l ∈ v.lexemes indent depth, l.Written
  | null => List.forall_mem_singleton.mpr (.word .null)
  | bool true => List.forall_mem_singleton.mpr (.word .true)
  | bool false => List.forall_mem_singleton.mpr (.word .false)
  | number n => List.forall_mem_singleton.mpr (.number (n.numberText_write .document))
  | string s => List.forall_mem_singleton.mpr (.string s)
  | array items =>
    forall_written_enclosed (by decide) (by decide)
      (written_of_mem_itemLexemes indent (depth + 1) [] (by simp) items)
  | object members =>
    forall_written_enclosed (by decide) (by decide)
      (written_of_mem_memberLexemes indent (depth + 1) [] (by simp) members)

theorem written_of_mem_itemLexemes (indent depth : Nat) (separator : List Char)
    (hseparator : ∀ c ∈ separator, c = ',') :
    ∀ items : List Value, ∀ l ∈ itemLexemes indent depth separator items, l.Written
  | [] => by simp [itemLexemes]
  | v :: vs => by
    intro l hl
    have hmark : Written (.mark (separator ++ lineBreak indent depth)) :=
      .mark fun _ => Lexeme.mem_markChars_of_separator hseparator
    have hv := written_of_mem_lexemes indent depth v l
    have hvs := written_of_mem_itemLexemes indent depth [','] (by simp) vs l
    simp only [itemLexemes, List.cons_append, List.mem_cons, List.mem_append] at hl
    rcases hl with rfl | hl | hl
    · exact hmark
    · exact hv hl
    · exact hvs hl

theorem written_of_mem_memberLexemes (indent depth : Nat) (separator : List Char)
    (hseparator : ∀ c ∈ separator, c = ',') :
    ∀ members : Members Value, ∀ l ∈ memberLexemes indent depth separator members, l.Written
  | [] => by simp [memberLexemes]
  | (name, v) :: ms => by
    intro l hl
    have hmark : Written (.mark (separator ++ lineBreak indent depth)) :=
      .mark fun _ => Lexeme.mem_markChars_of_separator hseparator
    have hv := written_of_mem_lexemes indent depth v l
    have hms := written_of_mem_memberLexemes indent depth [','] (by simp) ms l
    simp only [memberLexemes, List.cons_append, List.mem_cons, List.mem_append] at hl
    rcases hl with rfl | rfl | rfl | hl | hl
    · exact hmark
    · exact .name name
    · exact .mark fun c => Lexeme.mem_markChars_of_colon
    · exact hv hl
    · exact hms hl

end

theorem escapeFree_write (v : Value) (indent : Nat) : EscapeFree (v.write indent) := by
  rw [write, escapeFree_ofList, List.mem_flatMap]
  rintro ⟨lexeme, hlexeme, hmem⟩
  exact (written_of_mem_lexemes indent 0 v lexeme hlexeme).escape_notMem hmem

end Value

/-- Colouring a written value puts each of its tokens in the colour of its kind: member names in
blue, strings in green, numbers in cyan, and words in magenta. -/
theorem Display.jsonText_write (v : Value) (indent : Nat) :
    Display.jsonText (v.write indent) ⟨true⟩ =
      String.ofList ((v.lexemes indent 0).flatMap Lexeme.dyed) := by
  have hpieces : ((v.lexemes indent 0).flatMap Lexeme.pieces).flatMap Lexeme.dyed =
      (v.lexemes indent 0).flatMap Lexeme.dyed := by
    rw [List.flatMap_assoc]
    exact List.flatMap_congr fun lexeme _ => Lexeme.flatMap_dyed_pieces lexeme
  rw [jsonText_colored (v.escapeFree_write indent), v.scan_write indent, hpieces]

end JsonKeys
