import JsonKeys.Display.JsonText
import Mathlib.Tactic.SplitIfs

/-!
The end of a string, looked for in the bytes of a text. A backslash passes over one byte only, which
may be the first of a character's several. The bytes that are left of that character are neither
quotes nor backslashes, so the search ends between two characters, where the split by characters
does.
-/
namespace JsonKeys

namespace Lexeme

/-- The bytes of a text. -/
def utf8 (cs : List Char) : List UInt8 := cs.flatMap String.utf8EncodeChar

/-- The position behind the quote that ends a string, looked for from a position on, or the end of
the text. -/
def endOfString (bytes : List UInt8) (position : Nat) : Nat :=
  if h : position < bytes.length then
    if bytes[position] = 0x5c then endOfString bytes (position + 2)
    else if bytes[position] = 0x22 then position + 1
    else endOfString bytes (position + 1)
  else bytes.length
termination_by bytes.length - position

theorem endOfString_of_le {bytes : List UInt8} {position : Nat} (h : bytes.length ≤ position) :
    endOfString bytes position = bytes.length := by
  rw [endOfString, dif_neg (Nat.not_lt.mpr h)]

/-- One step of the search, at the byte behind the first bytes. -/
theorem endOfString_step (before : List UInt8) (b : UInt8) (after : List UInt8) :
    endOfString (before ++ b :: after) before.length =
      if b = 0x5c then endOfString (before ++ b :: after) (before.length + 2)
      else if b = 0x22 then before.length + 1
      else endOfString (before ++ b :: after) (before.length + 1) := by
  have hlt : before.length < (before ++ b :: after).length := by simp
  have hget : (before ++ b :: after)[before.length] = b := List.getElem_of_append rfl rfl
  rw [endOfString, dif_pos hlt, hget]

/-- A byte that the search passes over by itself. -/
def IsPlain (b : UInt8) : Prop := b ≠ 0x5c ∧ b ≠ 0x22

theorem endOfString_skip {middle : List UInt8} (h : ∀ b ∈ middle, IsPlain b)
    (before after : List UInt8) :
    endOfString (before ++ middle ++ after) before.length =
      endOfString (before ++ middle ++ after) (before ++ middle).length := by
  induction middle generalizing before with
  | nil => rw [List.append_nil]
  | cons b middle ih =>
    have hb : IsPlain b := h b List.mem_cons_self
    have hmiddle := ih (fun x hx => h x (List.mem_cons_of_mem b hx)) (before ++ [b])
    have hbytes : before ++ b :: middle ++ after = before ++ b :: (middle ++ after) := by simp
    have hsame : before ++ [b] ++ middle = before ++ b :: middle := by simp
    have hlength : (before ++ [b]).length = before.length + 1 := by simp
    rw [hsame, hlength] at hmiddle
    rw [← hmiddle, hbytes, endOfString_step, if_neg hb.1, if_neg hb.2]

/-- A character is one byte of its own number, or several bytes beyond those of one. -/
theorem utf8EncodeChar_cases (c : Char) :
    String.utf8EncodeChar c = [UInt8.ofNat c.toNat] ∧ c.toNat < 128 ∨
      String.utf8EncodeChar c ≠ [] ∧ ∀ b ∈ String.utf8EncodeChar c, 128 ≤ b.toNat := by
  have hnumber : c.toNat = c.val.toNat := rfl
  unfold String.utf8EncodeChar
  dsimp only
  split_ifs with hone
  · exact .inl ⟨rfl, by omega⟩
  all_goals
    refine .inr ⟨List.cons_ne_nil _ _, fun b hb => ?_⟩
    simp only [List.mem_cons, List.not_mem_nil, or_false] at hb
    rcases hb with rfl | rfl | rfl | rfl <;>
      rw [UInt8.toNat_ofNat'] <;> omega

theorem isPlain_of_le {b : UInt8} (h : 128 ≤ b.toNat) : IsPlain b := by
  constructor
  all_goals
    rintro rfl
    exact absurd h (by decide)

theorem ne_of_byte {c d : Char} (hc : c.toNat < 128) (hd : d.toNat < 128) (hne : c ≠ d) :
    UInt8.ofNat c.toNat ≠ UInt8.ofNat d.toNat := by
  intro h
  have hnumber := congrArg UInt8.toNat h
  rw [UInt8.toNat_ofNat', UInt8.toNat_ofNat', Nat.mod_eq_of_lt (by omega),
    Nat.mod_eq_of_lt (by omega)] at hnumber
  exact hne (Char.toNat_inj.mp hnumber)

theorem isPlain_of_ne {c : Char} (hquote : c ≠ '"') (hbackslash : c ≠ '\\') :
    ∀ b ∈ String.utf8EncodeChar c, IsPlain b := by
  intro b hb
  rcases utf8EncodeChar_cases c with ⟨hone, hlt⟩ | ⟨-, hmany⟩
  · rw [hone, List.mem_singleton] at hb
    rw [hb]
    exact ⟨ne_of_byte hlt (by decide) hbackslash, ne_of_byte hlt (by decide) hquote⟩
  · exact isPlain_of_le (hmany b hb)

/-- Behind the first byte of a character the search passes over all. -/
theorem exists_utf8EncodeChar_cons (c : Char) :
    ∃ b bs, String.utf8EncodeChar c = b :: bs ∧ ∀ x ∈ bs, IsPlain x := by
  rcases utf8EncodeChar_cases c with ⟨hone, -⟩ | ⟨hne, hmany⟩
  · exact ⟨_, [], hone, by simp⟩
  · obtain ⟨b, bs, hbytes⟩ := List.exists_cons_of_ne_nil hne
    rw [hbytes] at hmany
    exact ⟨b, bs, hbytes, fun x hx => isPlain_of_le (hmany x (List.mem_cons_of_mem b hx))⟩

theorem utf8_append (cs more : List Char) : utf8 (cs ++ more) = utf8 cs ++ utf8 more :=
  List.flatMap_append

theorem utf8_singleton (c : Char) : utf8 [c] = String.utf8EncodeChar c := List.flatMap_singleton _ c

theorem endOfString_other {c : Char} (hquote : c ≠ '"') (hbackslash : c ≠ '\\')
    (before after : List UInt8) :
    endOfString (before ++ utf8 [c] ++ after) before.length =
      endOfString (before ++ utf8 [c] ++ after) (before ++ utf8 [c]).length := by
  have hplain : ∀ b ∈ utf8 [c], IsPlain b := by
    rw [utf8_singleton]
    exact isPlain_of_ne hquote hbackslash
  exact endOfString_skip hplain before after

theorem endOfString_quote (before after : List UInt8) :
    endOfString (before ++ utf8 ['"'] ++ after) before.length = (before ++ utf8 ['"']).length := by
  have hquote : utf8 ['"'] = [0x22] := by decide
  rw [hquote, List.append_assoc, List.singleton_append, endOfString_step, if_neg (by decide),
    if_pos rfl, List.length_append, List.length_singleton]

/-- A backslash takes a whole character with it: the first byte by its own step, the others because
they are plain. -/
theorem endOfString_backslash (c : Char) (before after : List UInt8) :
    endOfString (before ++ utf8 ['\\', c] ++ after) before.length =
      endOfString (before ++ utf8 ['\\', c] ++ after) (before ++ utf8 ['\\', c]).length := by
  obtain ⟨b, bs, hc, hbs⟩ := exists_utf8EncodeChar_cons c
  have hpair : utf8 ['\\', c] = 0x5c :: b :: bs := by
    rw [utf8, List.flatMap_cons, List.flatMap_singleton, hc]
    rfl
  have hskip := endOfString_skip hbs (before ++ [0x5c, b]) after
  have hsame : before ++ [0x5c, b] ++ bs = before ++ 0x5c :: b :: bs := by simp
  have hlength : (before ++ [0x5c, b]).length = before.length + 2 := by simp
  have hbytes : before ++ 0x5c :: b :: bs ++ after = before ++ 0x5c :: (b :: bs ++ after) := by simp
  rw [hsame, hlength] at hskip
  rw [hpair, ← hskip, hbytes, endOfString_step, if_pos rfl]

/-- The search in the bytes ends where the split by characters does. -/
theorem endOfString_utf8 (before : List UInt8) (cs : List Char) :
    endOfString (before ++ utf8 cs) before.length = (before ++ utf8 (splitString cs).1).length := by
  fun_induction splitString cs generalizing before with
  | case1 => exact endOfString_of_le (by simp [utf8])
  | case2 =>
    have hbackslash : utf8 ['\\'] = [0x5c] := by decide
    rw [hbackslash, endOfString_step, if_pos rfl]
    exact endOfString_of_le (by simp)
  | case3 c cs ih =>
    have hcs : utf8 ('\\' :: c :: cs) = utf8 ['\\', c] ++ utf8 cs := utf8_append ['\\', c] cs
    have hsplit : utf8 ('\\' :: c :: (splitString cs).1) =
        utf8 ['\\', c] ++ utf8 (splitString cs).1 :=
      utf8_append ['\\', c] _
    rw [hcs, hsplit, ← List.append_assoc, ← List.append_assoc, endOfString_backslash, ih]
  | case4 cs =>
    have hcs : utf8 ('"' :: cs) = utf8 ['"'] ++ utf8 cs := utf8_append ['"'] cs
    rw [hcs, ← List.append_assoc, endOfString_quote]
  | case5 c cs hone hbackslash hquote ih =>
    have hcs : utf8 (c :: cs) = utf8 [c] ++ utf8 cs := utf8_append [c] cs
    have hsplit : utf8 (c :: (splitString cs).1) = utf8 [c] ++ utf8 (splitString cs).1 :=
      utf8_append [c] _
    have hne : c ≠ '\\' := by
      rintro rfl
      cases cs with
      | nil => exact hone rfl rfl
      | cons d cs => exact hbackslash d cs rfl rfl
    rw [hcs, hsplit, ← List.append_assoc, ← List.append_assoc, endOfString_other hquote hne, ih]

/-- Cutting the bytes of a text behind the string that it begins with leaves the bytes of whole
characters. -/
theorem splitAt_endOfString (cs : List Char) :
    (utf8 ('"' :: cs)).splitAt (endOfString (utf8 ('"' :: cs)) 1) =
      (utf8 ('"' :: (splitString cs).1), utf8 (splitString cs).2) := by
  have hquote : ∀ cs, utf8 ('"' :: cs) = [0x22] ++ utf8 cs := fun cs => utf8_append ['"'] cs
  have hend : endOfString ([0x22] ++ utf8 cs) 1 = ([0x22] ++ utf8 (splitString cs).1).length :=
    endOfString_utf8 [0x22] cs
  have hbytes : [0x22] ++ utf8 cs =
      [0x22] ++ utf8 (splitString cs).1 ++ utf8 (splitString cs).2 := by
    rw [List.append_assoc, ← utf8_append, splitString_append]
  rw [hquote, hquote, hend, List.splitAt_eq, hbytes, List.take_left', List.drop_left']
  · rfl
  · rfl

end Lexeme

end JsonKeys
