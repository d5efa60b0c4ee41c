import JsonKeys.Display.Color
import JsonKeys.Proofs.Display.EscapeFree

/-!
Colours are put on a text and taken off again. In a text without escape characters no style has to
begin again, so that it stands unchanged between two sequences, and what takes the sequences away
leaves it as it was.
-/
namespace JsonKeys

namespace Ink

/-- The sequence that begins a style. -/
def sequence (code : List Char) : List Char := '\x1b' :: '[' :: code ++ ['m']

/-- A text between the sequence of its style and the one that ends it. -/
def styled (code cs : List Char) : List Char := sequence code ++ cs ++ sequence ['0']

theorem reopen_of_escapeFree (style : List Char) {cs : List Char} (h : '\x1b' ∉ cs) :
    reopen style cs = cs := by
  induction cs with
  | nil => rfl
  | cons c cs ih =>
    rw [List.mem_cons, not_or] at h
    rw [reopen, ih h.2]
    intro rest hc
    exact absurd hc.symm h.1

theorem wrap_colored (code : List Char) {cs : List Char} (h : '\x1b' ∉ cs) :
    wrap ⟨true⟩ code cs = styled code cs := by
  rw [wrap, if_pos rfl]
  dsimp only
  rw [reopen_of_escapeFree _ h]
  rfl

/-- The characters between the bracket and the last letter of a sequence. -/
def isParameter (c : Char) : Bool := c.isDigit || c == ';'

/-- What stands behind a sequence whose escape character has been read, if it is one. -/
def afterSequence? : List Char → Option (List Char)
  | '[' :: cs =>
    match cs.dropWhile isParameter with
    | 'm' :: rest => some rest
    | _ => none
  | _ => none

theorem length_afterSequence?_lt {cs rest : List Char} (h : afterSequence? cs = some rest) :
    rest.length < cs.length := by
  unfold afterSequence? at h
  split at h
  · next cs =>
    split at h
    · next tail htail =>
      have hle := (List.dropWhile_suffix isParameter : cs.dropWhile isParameter <:+ cs).length_le
      rw [htail, Option.some.inj h, List.length_cons] at hle
      rw [List.length_cons]
      omega
    · cases h
  · cases h

/-- Takes the sequences out of a text. An escape character that begins none stays. -/
def strip : List Char → List Char
  | [] => []
  | c :: cs =>
    if c = '\x1b' then
      match h : afterSequence? cs with
      | some rest =>
        have := length_afterSequence?_lt h
        strip rest
      | none => c :: strip cs
    else c :: strip cs
termination_by cs => cs.length

theorem strip_append_of_escapeFree {cs : List Char} (h : '\x1b' ∉ cs) (rest : List Char) :
    strip (cs ++ rest) = cs ++ strip rest := by
  induction cs with
  | nil => rfl
  | cons c cs ih =>
    rw [List.mem_cons, not_or] at h
    rw [List.cons_append, strip, if_neg (Ne.symm h.1), ih h.2]
    rfl

theorem afterSequence?_parameters {code : List Char} (h : ∀ c ∈ code, isParameter c)
    (rest : List Char) :
    afterSequence? ('[' :: code ++ 'm' :: rest) = some rest := by
  have hdrop : (code ++ 'm' :: rest).dropWhile isParameter = 'm' :: rest := by
    rw [List.dropWhile_append_of_pos h, List.dropWhile_cons_of_neg (by decide)]
  simp only [List.cons_append, afterSequence?, hdrop]

theorem strip_sequence {code : List Char} (h : ∀ c ∈ code, isParameter c) (rest : List Char) :
    strip (sequence code ++ rest) = strip rest := by
  have htext : sequence code ++ rest = '\x1b' :: ('[' :: code ++ 'm' :: rest) := by simp [sequence]
  have hafter := afterSequence?_parameters h rest
  rw [htext, strip, if_pos rfl]
  split
  · next tail htail =>
    rw [hafter] at htail
    exact congrArg strip (Option.some.inj htail).symm
  · next hnone =>
    rw [hafter] at hnone
    cases hnone

theorem strip_styled {code cs : List Char} (hcode : ∀ c ∈ code, isParameter c) (h : '\x1b' ∉ cs)
    (rest : List Char) : strip (styled code cs ++ rest) = cs ++ strip rest := by
  rw [styled, List.append_assoc, List.append_assoc, strip_sequence hcode,
    strip_append_of_escapeFree h, strip_sequence (List.all_eq_true.mp (by decide))]

/-- A text with its sequences taken out. -/
def uncolored (text : String) : String := String.ofList (strip text.toList)

/-- Taking the sequences out of the first text leaves the second one, whatever stands behind: texts
that are joined never make a new sequence. -/
def Dresses (dressed bare : String) : Prop :=
  ∀ rest, strip (dressed.toList ++ rest) = bare.toList ++ strip rest

namespace Dresses

theorem uncolored_eq {dressed bare : String} (h : Dresses dressed bare) :
    uncolored dressed = bare := by
  have hall := h []
  rw [List.append_nil, strip, List.append_nil] at hall
  rw [uncolored, hall, String.ofList_toList]

theorem of_escapeFree {text : String} (h : EscapeFree text) : Dresses text text :=
  strip_append_of_escapeFree h

theorem append {dressed bare dressed' bare' : String} (h : Dresses dressed bare)
    (h' : Dresses dressed' bare') :
    Dresses (dressed ++ dressed') (bare ++ bare') := by
  intro rest
  rw [String.toList_append, String.toList_append, List.append_assoc, h, h', List.append_assoc]

/-- Plain text behind. -/
theorem plain {dressed bare : String} (h : Dresses dressed bare) {text : String}
    (htext : EscapeFree text) :
    Dresses (dressed ++ text) (bare ++ text) := h.append (of_escapeFree htext)

theorem join {α : Type} {as : List α} {dressed bare : α → String}
    (h : ∀ a ∈ as, Dresses (dressed a) (bare a)) :
    Dresses (String.join (as.map dressed)) (String.join (as.map bare)) := by
  induction as with
  | nil =>
    rw [List.map_nil, List.map_nil, String.join_nil]
    exact of_escapeFree (by decide)
  | cons a as ih =>
    have has : Dresses (String.join (as.map dressed)) (String.join (as.map bare)) :=
      ih fun b hb => h b (List.mem_cons_of_mem a hb)
    rw [List.map_cons, List.map_cons, String.join_cons, String.join_cons]
    exact (h a List.mem_cons_self).append has

theorem map_uncolored {α : Type} {as : List α} {dressed bare : α → String}
    (h : ∀ a ∈ as, Dresses (dressed a) (bare a)) :
    (as.map dressed).map uncolored = as.map bare := by
  rw [List.map_map]
  exact List.map_congr_left fun a ha => (h a ha).uncolored_eq

theorem wrap {code : List Char} (hcode : ∀ c ∈ code, isParameter c) {text : String}
    (h : EscapeFree text) :
    Dresses (String.ofList (Ink.wrap ⟨true⟩ code text.toList))
      (String.ofList (Ink.wrap ⟨false⟩ code text.toList)) := by
  intro rest
  rw [String.toList_ofList, String.toList_ofList, wrap_colored code h]
  exact strip_styled hcode h rest

theorem isParameter_of_mem_code (color : Color) : ∀ c ∈ color.code, isParameter c := by
  cases color <;> exact List.all_eq_true.mp (by decide)

theorem paint (color : Color) {text : String} (h : EscapeFree text) :
    Dresses (Ink.paint ⟨true⟩ color text) (Ink.paint ⟨false⟩ color text) :=
  wrap (isParameter_of_mem_code color) h

theorem bold (color : Color) {text : String} (h : EscapeFree text) :
    Dresses (Ink.bold ⟨true⟩ color text) (Ink.bold ⟨false⟩ color text) := by
  refine wrap (fun c hc => ?_) h
  rcases List.mem_cons.mp hc with rfl | hc
  · decide
  rcases List.mem_cons.mp hc with rfl | hc
  · decide
  · exact isParameter_of_mem_code color c hc

end Dresses

end Ink

end JsonKeys
