import JsonKeys.Display.JsonText
import JsonKeys.Proofs.Number.Text
import Mathlib.Tactic.SplitIfs

/-!
Written JSON is scanned into the lexemes that it was written of. No lexeme runs into the next one:
behind a name comes a colon, and behind a value the end, a comma or a closing bracket, perhaps on a
line of its own.
-/
namespace JsonKeys

namespace Lexeme

/-- What the scan makes of a written lexeme: the characters of a mark come one by one. -/
def pieces (lexeme : Lexeme) : List Lexeme :=
  match lexeme.kind with
  | .mark => lexeme.text.map fun c => mark [c]
  | _ => [lexeme]

/-- The characters of written marks. -/
def markChars : List Char := ['[', ']', '\x7b', '\x7d', ',', ':', ' ', '\n']

theorem scan_cons_mark {c : Char} (h : c ∈ markChars) (cs : List Char) :
    scan (c :: cs) = mark [c] :: scan cs := by
  have hbegins : markChars.all fun c =>
      decide (c ≠ '"' ∧ ¬(c = '-' ∨ c.isDigit) ∧ ¬(c = 't' ∨ c = 'f' ∨ c = 'n')) := by decide
  obtain ⟨hquote, hnumber, hword⟩ := of_decide_eq_true (List.all_eq_true.mp hbegins c h)
  rw [scan, if_neg hquote, if_neg hnumber, if_neg hword]

theorem scan_mark {cs : List Char} (h : ∀ c ∈ cs, c ∈ markChars) (rest : List Char) :
    scan (cs ++ rest) = (mark cs).pieces ++ scan rest := by
  induction cs with
  | nil => rfl
  | cons c cs ih =>
    rw [List.cons_append, scan_cons_mark (h c List.mem_cons_self),
      ih fun d hd => h d (List.mem_cons_of_mem c hd)]
    rfl

theorem takeWhile_append_of_head {p : Char → Bool} {cs rest : List Char} (h : ∀ c ∈ cs, p c)
    (hrest : ∀ c ∈ rest.head?, p c = false) :
    (cs ++ rest).takeWhile p = cs ∧ (cs ++ rest).dropWhile p = rest := by
  rw [List.takeWhile_append_of_pos h, List.dropWhile_append_of_pos h]
  cases rest with
  | nil => exact ⟨List.append_nil cs, rfl⟩
  | cons c rest =>
    have hc : ¬p c = true := by simp [hrest c rfl]
    rw [List.takeWhile_cons_of_neg hc, List.dropWhile_cons_of_neg hc, List.append_nil]
    exact ⟨rfl, rfl⟩

theorem scan_number {cs rest : List Char} (h : NumberText cs)
    (hrest : ∀ c ∈ rest.head?, NumberLiteral.isPart c = false) :
    scan (cs ++ rest) = ⟨.number, cs⟩ :: scan rest := by
  obtain ⟨c, cs, rfl, hc⟩ := h.begins
  have hquote : c ≠ '"' := by
    rintro rfl
    rcases hc with hc | hc <;> exact absurd hc (by decide)
  obtain ⟨htake, hdrop⟩ :=
    takeWhile_append_of_head (fun d hd => h.isPart d (List.mem_cons_of_mem c hd)) hrest
  rw [List.cons_append, scan, if_neg hquote, if_pos hc, htake, hdrop]

/-- A word in letters, the first of them one that a word for a value begins with. -/
structure WordText (cs : List Char) : Prop where
  begins : ∃ c rest, cs = c :: rest ∧ (c = 't' ∨ c = 'f' ∨ c = 'n')
  isAlpha : ∀ c ∈ cs, c.isAlpha

namespace WordText

theorem null : WordText "null".toList := ⟨⟨_, _, rfl, by decide⟩, List.all_eq_true.mp (by decide)⟩

theorem true : WordText "true".toList := ⟨⟨_, _, rfl, by decide⟩, List.all_eq_true.mp (by decide)⟩

theorem false : WordText "false".toList := ⟨⟨_, _, rfl, by decide⟩, List.all_eq_true.mp (by decide)⟩

end WordText

theorem scan_word {cs rest : List Char} (h : WordText cs)
    (hrest : ∀ c ∈ rest.head?, c.isAlpha = false) :
    scan (cs ++ rest) = ⟨.word, cs⟩ :: scan rest := by
  obtain ⟨c, cs, rfl, hword⟩ := h.begins
  have hother : c ≠ '"' ∧ ¬(c = '-' ∨ c.isDigit) := by
    rcases hword with rfl | rfl | rfl <;> decide
  obtain ⟨htake, hdrop⟩ :=
    takeWhile_append_of_head (fun d hd => h.isAlpha d (List.mem_cons_of_mem c hd)) hrest
  rw [List.cons_append, scan, if_neg hother.1, if_neg hother.2, if_pos hword, htake, hdrop]

theorem splitString_backslash (c : Char) (cs : List Char) :
    splitString ('\\' :: c :: cs) = ('\\' :: c :: (splitString cs).1, (splitString cs).2) := by
  rw [splitString]

theorem splitString_cons {c : Char} (hquote : c ≠ '"') (hbackslash : c ≠ '\\') (cs : List Char) :
    splitString (c :: cs) = (c :: (splitString cs).1, (splitString cs).2) := by
  rw [splitString]
  · exact fun h => absurd h hbackslash
  · exact fun _ _ h => absurd h hbackslash
  · exact hquote

theorem digitChar_ne : ∀ n < 16, Nat.digitChar n ≠ '"' ∧ Nat.digitChar n ≠ '\\' := by decide

/-- An escaped character does not end the string that it is in. -/
theorem splitString_escaped_append (c : Char) (cs : List Char) :
    splitString (escaped c ++ cs) = (escaped c ++ (splitString cs).1, (splitString cs).2) := by
  unfold escaped
  split_ifs with hspecial
  · exact splitString_backslash c cs
  all_goals try exact splitString_backslash _ cs
  · have hhigh := digitChar_ne (c.toNat / 16) (by omega)
    have hlow := digitChar_ne (c.toNat % 16) (by omega)
    simp only [List.cons_append, List.nil_append, splitString_backslash,
      splitString_cons (c := '0') (by decide) (by decide), splitString_cons hhigh.1 hhigh.2,
      splitString_cons hlow.1 hlow.2]
  · rw [not_or] at hspecial
    exact splitString_cons hspecial.1 hspecial.2 cs

theorem splitString_literal (text rest : List Char) :
    splitString (text.flatMap escaped ++ '"' :: rest) = (text.flatMap escaped ++ ['"'], rest) := by
  induction text with
  | nil => simp [splitString]
  | cons c text ih =>
    rw [List.flatMap_cons, List.append_assoc, splitString_escaped_append, ih, List.append_assoc]

theorem scan_literal (text : String) (rest : List Char) :
    scan (literal text ++ rest) =
      ⟨if namesMember rest then .name else .string, literal text⟩ :: scan rest := by
  have hsplit := splitString_literal text.toList rest
  have htext : literal text ++ rest = '"' :: (text.toList.flatMap escaped ++ '"' :: rest) := by
    simp [literal]
  rw [htext, scan, if_pos rfl, hsplit]
  rfl

/-- `Scans lexemes rest`: before the rest, the text of the lexemes is cut into them. -/
def Scans (lexemes : List Lexeme) (rest : List Char) : Prop :=
  scan (lexemes.flatMap text ++ rest) = lexemes.flatMap pieces ++ scan rest

theorem Scans.nil (rest : List Char) : Scans [] rest := rfl

theorem Scans.append {first second : List Lexeme} {rest : List Char}
    (h : Scans first (second.flatMap text ++ rest)) (hrest : Scans second rest) :
    Scans (first ++ second) rest := by
  unfold Scans at *
  rw [List.flatMap_append, List.flatMap_append, List.append_assoc, List.append_assoc, h, hrest]

theorem Scans.cons {lexeme : Lexeme} {lexemes : List Lexeme} {rest : List Char}
    (h : Scans [lexeme] (lexemes.flatMap text ++ rest)) (hrest : Scans lexemes rest) :
    Scans (lexeme :: lexemes) rest := h.append hrest

theorem scans_mark {cs : List Char} (h : ∀ c ∈ cs, c ∈ markChars) (rest : List Char) :
    Scans [mark cs] rest := by
  unfold Scans
  rw [List.flatMap_singleton, List.flatMap_singleton]
  exact scan_mark h rest

/-- What may stand behind a written value: nothing that goes on with a number or a word, and no
colon. -/
structure Ends (rest : List Char) : Prop where
  notPart : ∀ c ∈ rest.head?, NumberLiteral.isPart c = false
  notAlpha : ∀ c ∈ rest.head?, c.isAlpha = false
  notColon : namesMember rest = false

theorem Ends.nil : Ends [] := ⟨by simp, by simp, by decide⟩

theorem Ends.string {rest : List Char} (h : Ends rest) (text : String) :
    Scans [⟨.string, literal text⟩] rest := by
  unfold Scans
  rw [List.flatMap_singleton, List.flatMap_singleton, scan_literal, if_neg (by simp [h.notColon])]
  rfl

theorem Ends.number {rest : List Char} (h : Ends rest) {cs : List Char} (hcs : NumberText cs) :
    Scans [⟨.number, cs⟩] rest := by
  unfold Scans
  rw [List.flatMap_singleton, List.flatMap_singleton, scan_number hcs h.notPart]
  rfl

theorem Ends.word {rest : List Char} (h : Ends rest) {cs : List Char} (hcs : WordText cs) :
    Scans [⟨.word, cs⟩] rest := by
  unfold Scans
  rw [List.flatMap_singleton, List.flatMap_singleton, scan_word hcs h.notAlpha]
  rfl

theorem eq_of_mem_lineBreak {indent depth : Nat} {c : Char} (h : c ∈ Value.lineBreak indent depth) :
    c = '\n' ∨ c = ' ' := by
  unfold Value.lineBreak at h
  split at h
  · cases h
  · rcases List.mem_cons.mp h with rfl | h
    · exact .inl rfl
    · exact .inr (List.mem_replicate.mp h).2

/-- A comma or a closing bracket ends a value, also on a line of its own. -/
theorem Ends.close {c : Char} (hc : c ∈ [',', ']', '\x7d']) (indent depth : Nat)
    (rest : List Char) :
    Ends (Value.lineBreak indent depth ++ c :: rest) := by
  have hclose : [',', ']', '\x7d'].all fun c =>
      decide (NumberLiteral.isPart c = false ∧ c.isAlpha = false ∧
        Text.isBlank c = false ∧ c ≠ ':') := by decide
  obtain ⟨hpart, halpha, hblank, hcolon⟩ := of_decide_eq_true (List.all_eq_true.mp hclose c hc)
  have hbreak : ∀ b ∈ Value.lineBreak indent depth, Text.isBlank b := by
    intro b hb
    rcases eq_of_mem_lineBreak hb with rfl | rfl <;> decide
  have htrim : Text.trimStart (Value.lineBreak indent depth ++ c :: rest) = c :: rest := by
    rw [Text.trimStart, List.dropWhile_append_of_pos hbreak,
      List.dropWhile_cons_of_neg (by simp [hblank])]
  have hhead : ∀ b ∈ (Value.lineBreak indent depth ++ c :: rest).head?, b = c ∨ b = '\n' := by
    unfold Value.lineBreak
    split
    · intro b hb
      exact .inl (Option.some.inj hb).symm
    · intro b hb
      exact .inr (Option.some.inj hb).symm
  refine ⟨fun b hb => ?_, fun b hb => ?_, ?_⟩
  · rcases hhead b hb with rfl | rfl
    · exact hpart
    · decide
  · rcases hhead b hb with rfl | rfl
    · exact halpha
    · decide
  · rw [namesMember, htrim]
    simpa using hcolon

/-- A comma behind a value. -/
theorem Ends.comma (cs : List Char) : Ends (',' :: cs) := Ends.close (by decide) 0 0 cs

theorem scans_enclosed {opening closing : Char} {lexemes : List Lexeme} {before rest : List Char}
    (hopening : opening ∈ markChars) (hclosing : closing ∈ markChars)
    (hbefore : ∀ c ∈ before, c ∈ markChars) (h : Scans lexemes (before ++ closing :: rest)) :
    Scans (mark [opening] :: lexemes ++ [mark (before ++ [closing])]) rest := by
  have hlast : ∀ c ∈ before ++ [closing], c ∈ markChars :=
    List.forall_mem_append.mpr ⟨hbefore, List.forall_mem_singleton.mpr hclosing⟩
  have hrest : [mark (before ++ [closing])].flatMap text ++ rest = before ++ closing :: rest := by
    simp [mark]
  refine Scans.append (Scans.cons (scans_mark (by simpa using hopening) _) ?_)
    (scans_mark hlast rest)
  rwa [hrest]

theorem mem_markChars_of_lineBreak {indent depth : Nat} {c : Char}
    (h : c ∈ Value.lineBreak indent depth) :
    c ∈ markChars := by
  rcases eq_of_mem_lineBreak h with rfl | rfl <;> decide

theorem mem_markChars_of_closing {indent depth : Nat} {isEmpty : Bool} {c : Char}
    (h : c ∈ if isEmpty then [] else Value.lineBreak indent depth) : c ∈ markChars := by
  split at h
  · cases h
  · exact mem_markChars_of_lineBreak h

theorem mem_markChars_of_separator {separator : List Char} (hseparator : ∀ c ∈ separator, c = ',')
    {indent depth : Nat} {c : Char} (h : c ∈ separator ++ Value.lineBreak indent depth) :
    c ∈ markChars := by
  rcases List.mem_append.mp h with hc | hc
  · rw [hseparator c hc]
    decide
  · exact mem_markChars_of_lineBreak hc

theorem scans_separator {separator : List Char} (hseparator : ∀ c ∈ separator, c = ',')
    (indent depth : Nat) (rest : List Char) :
    Scans [mark (separator ++ Value.lineBreak indent depth)] rest :=
  scans_mark (fun _ => mem_markChars_of_separator hseparator) rest

/-- Behind a name the colon tells that it is one. -/
theorem scans_name (name : String) (indent : Nat) (lexemes : List Lexeme) (rest : List Char) :
    Scans [⟨.name, literal name⟩]
      ((mark (Value.colon indent) :: lexemes).flatMap text ++ rest) := by
  have hcolon : ∀ cs, namesMember (Value.colon indent ++ cs) := by
    intro cs
    unfold Value.colon
    split <;> rfl
  unfold Scans
  rw [List.flatMap_singleton, List.flatMap_singleton, scan_literal, List.flatMap_cons,
    List.append_assoc, mark, if_pos (hcolon _)]
  rfl

theorem mem_markChars_of_colon {indent : Nat} {c : Char} (h : c ∈ Value.colon indent) :
    c ∈ markChars := by
  have hcolon : c = ':' ∨ c = ' ' := by
    unfold Value.colon at h
    split at h
    · exact .inl (List.mem_singleton.mp h)
    · simpa using h
  rcases hcolon with rfl | rfl <;> decide

theorem scans_colon (indent : Nat) (rest : List Char) : Scans [mark (Value.colon indent)] rest :=
  scans_mark (fun _ => mem_markChars_of_colon) rest

end Lexeme

namespace Value

open Lexeme (Scans Ends markChars)

/-- Behind an item comes the comma before the next one, or what comes behind the last. -/
theorem ends_itemLexemes (indent depth : Nat) (items : List Value) {rest : List Char}
    (h : Ends rest) :
    Ends ((itemLexemes indent depth [','] items).flatMap Lexeme.text ++ rest) := by
  cases items with
  | nil => exact h
  | cons v vs => exact .comma _

theorem ends_memberLexemes (indent depth : Nat) (members : Members Value) {rest : List Char}
    (h : Ends rest) :
    Ends ((memberLexemes indent depth [','] members).flatMap Lexeme.text ++ rest) := by
  cases members with
  | nil => exact h
  | cons m ms => exact .comma _

mutual

theorem scans_lexemes (indent depth : Nat) : ∀ (v : Value) {rest : List Char}, Ends rest →
    Scans (v.lexemes indent depth) rest
  | null, rest, h => h.word .null
  | bool true, rest, h => h.word .true
  | bool false, rest, h => h.word .false
  | number n, rest, h => h.number (n.numberText_write .document)
  | string s, rest, h => h.string s
  | array items, rest, h => by
    refine Lexeme.scans_enclosed (by decide) (by decide)
      (fun _ => Lexeme.mem_markChars_of_closing) ?_
    refine scans_itemLexemes indent (depth + 1) [] items (by simp) fun hitems => ?_
    rw [List.isEmpty_eq_false_iff.mpr hitems]
    exact .close (by decide) indent depth rest
  | object members, rest, h => by
    refine Lexeme.scans_enclosed (by decide) (by decide)
      (fun _ => Lexeme.mem_markChars_of_closing) ?_
    refine scans_memberLexemes indent (depth + 1) [] members (by simp) fun hmembers => ?_
    rw [List.isEmpty_eq_false_iff.mpr hmembers]
    exact .close (by decide) indent depth rest

theorem scans_itemLexemes (indent depth : Nat) :
    ∀ (separator : List Char) (items : List Value) {rest : List Char},
    (∀ c ∈ separator, c = ',') → (items ≠ [] → Ends rest) →
    Scans (itemLexemes indent depth separator items) rest
  | _, [], rest, _, _ => .nil rest
  | separator, v :: vs, rest, hseparator, h => by
    have hrest : Ends rest := h (List.cons_ne_nil v vs)
    have hvs := scans_itemLexemes indent depth [','] vs (by simp) fun _ => hrest
    have hv := scans_lexemes indent depth v (ends_itemLexemes indent depth vs hrest)
    exact (Lexeme.scans_separator hseparator indent depth _).cons (hv.append hvs)

theorem scans_memberLexemes (indent depth : Nat) :
    ∀ (separator : List Char) (members : Members Value)
    {rest : List Char}, (∀ c ∈ separator, c = ',') → (members ≠ [] → Ends rest) →
    Scans (memberLexemes indent depth separator members) rest
  | _, [], rest, _, _ => .nil rest
  | separator, (name, v) :: ms, rest, hseparator, h => by
    have hrest : Ends rest := h (List.cons_ne_nil _ ms)
    have hms := scans_memberLexemes indent depth [','] ms (by simp) fun _ => hrest
    have hv := scans_lexemes indent depth v (ends_memberLexemes indent depth ms hrest)
    have hcolon := (Lexeme.scans_colon indent _).cons (hv.append hms)
    exact (Lexeme.scans_separator hseparator indent depth _).cons
      ((Lexeme.scans_name name indent _ rest).cons hcolon)

end

/-- A written value is scanned into its lexemes. -/
theorem scan_write (v : Value) (indent : Nat) :
    Lexeme.scan (v.write indent).toList = (v.lexemes indent 0).flatMap Lexeme.pieces := by
  have h := scans_lexemes indent 0 v Ends.nil
  unfold Scans at h
  rw [List.append_nil, Lexeme.scan, List.append_nil] at h
  rw [write, String.toList_ofList, h]

end Value

end JsonKeys
