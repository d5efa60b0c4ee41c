import JsonKeys.Proofs.KeyExpr.Ranges
import JsonKeys.Proofs.KeyExpr.Token
import JsonKeys.Proofs.Outline.Positions
import JsonKeys.Proofs.Text.Decimal

/-!
Key numbers stand for the keys of an outline. A key is read back as a path, which need not lead
where the key was met if a name on the way ends in a backslash or empty names are in front.
-/
namespace JsonKeys

namespace KeyExpr

theorem isDigit_of_mem_numeral {n : Nat} {c : Char} (h : c ∈ (Text.numeral n).toList) :
    c.isDigit := by
  rw [Text.numeral, String.toList_ofList] at h
  exact Text.isDigit_of_mem_natText h

theorem numeral_ne_empty (n : Nat) : Text.numeral n ≠ "" := by
  simp [Text.numeral, Text.natText, Nat.toDigits_ne_nil]

theorem tokens_numeral (n : Nat) {quote : Char} (hquote : quote.isDigit = false) :
    tokens (Text.numeral n) quote = [Text.numeral n] := by
  apply tokens_of_bare (numeral_ne_empty n)
  exact bare_of_isDigit hquote fun c hc => isDigit_of_mem_numeral hc

theorem isNumberToken_numeral (n : Nat) : isNumberToken (Text.numeral n) := by
  simp only [isNumberToken, Bool.and_eq_true, List.all_eq_true]
  constructor
  · simpa using numeral_ne_empty n
  · intro c hc
    simp [isDigit_of_mem_numeral hc]

theorem digitRun_natText (n : Nat) : DigitRun (Text.natText n) n :=
  readDigits?_eq_some_iff.mp (Text.readDigits?_natText n)

theorem numberPaths?_numeral {keys : List String} {n : Nat} (hpos : 1 ≤ n)
    (hn : n ≤ keys.length) :
    numberPaths? (Text.numeral n) keys = some [Path.ofText (keys[n - 1])] := by
  have hdenotes : Denotes keys (Text.numeral n) [keys[n - 1]] := by
    refine ⟨n, n, .number ⟨?_, hpos, hn⟩, ?_⟩
    · rw [Text.numeral, String.toList_ofList]
      exact digitRun_natText n
    · rw [drop_take_pred hpos, List.drop_eq_getElem_cons (by omega), List.take_succ_cons,
        List.take_zero]
  rw [numberPaths?, (pickKeys?_eq_some_iff (isNumberToken_numeral n)).mpr hdenotes]
  rfl

/-- A key number has one path, that of its key. -/
theorem paths_numeral {numbering : Numbering} {deep : Bool} {quote : Char} {n : Nat}
    (hquote : quote.isDigit = false) (hpos : 1 ≤ n) (hn : n ≤ (numbering.keys deep).length) :
    paths (Text.numeral n) numbering quote deep =
      .ok [Path.ofText ((numbering.keys deep)[n - 1])] := by
  have huses : usesNumbers (Text.numeral n) quote := by
    simp [usesNumbers, tokens_numeral n hquote, isNumberToken_numeral]
  have htoken : tokenPaths (numbering.keys deep) (Text.numeral n) =
      .ok [Path.ofText ((numbering.keys deep)[n - 1])] := by
    simp [tokenPaths, isNumberToken_numeral, numberPaths?_numeral hpos hn]
  simp only [paths, huses, if_true, tokens_numeral n hquote, tokenListPaths, List.mapM_cons,
    List.mapM_nil, htoken]
  rfl

end KeyExpr

namespace Value

/-- The key number has one path, and the path leads to a value of the document. -/
def KeyNumberLeads (document : Value) (deep : Bool) (n : Nat) : Prop :=
  ∃ names, KeyExpr.paths (Text.numeral n) (.ofDocument document) '"' deep =
      .ok [Path.ofNames names] ∧ document.Holds names

theorem length_numberedOutline (document : Value) (deep : Bool) :
    (numberedOutline document deep).length = (outline document deep).length := by
  simp [numberedOutline, NumberedKey.ofPaths]

/-- The key of names that lead somewhere stands for the names that it is read back as. -/
theorem paths_numeral_of_spell {document : Value} {deep : Bool} {names : List String} {n : Nat}
    (hpos : 1 ≤ n) (hkey : (outline document deep)[n - 1]? = some (spell names)) :
    KeyExpr.paths (Text.numeral n) (.ofDocument document) '"' deep =
      .ok [Path.ofNames (readBack names)] := by
  obtain ⟨hlt, hget⟩ := List.getElem?_eq_some_iff.mp hkey
  have hne : spell names ≠ "" := by
    rw [← hget]
    exact (mem_pathsOf.mp (List.getElem_mem hlt)).1
  have hn : n ≤ ((Numbering.ofDocument document).keys deep).length := by
    simp only [Numbering.keys]
    omega
  rw [KeyExpr.paths_numeral (by decide) hpos hn]
  simp only [Numbering.keys]
  rw [hget, ofText_spell hne]

/-- Every key number has one path. All the paths lead to values of the document if and only if every
listed key is read back as names that do, which they do if the names of the document are plain. -/
theorem key_numbers_lead_iff (document : Value) (deep : Bool) :
    (∀ n, 1 ≤ n → n ≤ (numberedOutline document deep).length → ∃ names, document.Holds names ∧
      (outline document deep)[n - 1]? = some (spell names) ∧
      KeyExpr.paths (Text.numeral n) (.ofDocument document) '"' deep =
        .ok [Path.ofNames (readBack names)]) ∧
    ((∀ n, 1 ≤ n → n ≤ (numberedOutline document deep).length → document.KeyNumberLeads deep n) ↔
      ∀ names, document.Holds names → spell names ∈ outline document deep →
        document.Holds (readBack names)) ∧
    (document.PlainNames →
      ∀ n, 1 ≤ n → n ≤ (numberedOutline document deep).length →
        document.KeyNumberLeads deep n) := by
  rw [length_numberedOutline]
  have hone : ∀ n, 1 ≤ n → n ≤ (outline document deep).length → ∃ names, document.Holds names ∧
      (outline document deep)[n - 1]? = some (spell names) ∧
      KeyExpr.paths (Text.numeral n) (.ofDocument document) '"' deep =
        .ok [Path.ofNames (readBack names)] := by
    intro n hpos hn
    have hlt : n - 1 < (outline document deep).length := by omega
    obtain ⟨names, hnames, hspell, -⟩ := exists_of_mem_outline (List.getElem_mem hlt)
    have hkey : (outline document deep)[n - 1]? = some (spell names) := by
      rw [List.getElem?_eq_getElem hlt, hspell]
    exact ⟨names, hnames, hkey, paths_numeral_of_spell hpos hkey⟩
  have hiff : (∀ n, 1 ≤ n → n ≤ (outline document deep).length →
        document.KeyNumberLeads deep n) ↔
      ∀ names, document.Holds names → spell names ∈ outline document deep →
        document.Holds (readBack names) := by
    constructor
    · intro h names _ hmem
      obtain ⟨i, hi, hget⟩ := List.mem_iff_getElem.mp hmem
      obtain ⟨others, hothers, hheld⟩ := h (i + 1) (by omega) (by omega)
      have hkey : (outline document deep)[i + 1 - 1]? = some (spell names) := by
        rw [Nat.add_sub_cancel, List.getElem?_eq_getElem hi, hget]
      rw [paths_numeral_of_spell (by omega) hkey] at hothers
      simp only [Except.ok.injEq, List.cons.injEq, and_true] at hothers
      rw [Path.ofNames_injective hothers]
      exact hheld
    · intro h n hpos hn
      obtain ⟨names, hnames, hkey, hpaths⟩ := hone n hpos hn
      exact ⟨readBack names, hpaths, h names hnames (List.mem_of_getElem? hkey)⟩
  refine ⟨hone, hiff, ?_⟩
  intro hplain
  rw [hiff]
  intro names hnames _
  rw [(hplain.plain_of_holds hnames).readBack_eq_self]
  exact hnames

/-- The key of `b` reads `a\.b`, with the backslash of the name in front of the dot. -/
def backslashed : Value := .object [("a\\", .object [("b", .null)])]

/-- The key of `b` reads `a\.b.b`. -/
def dotted : Value := .object [("a.b", .object [("b", .null)])]

theorem not_holds_backslashed : ¬backslashed.Holds ["a.b"] := by
  intro hx
  obtain ⟨record, hrecord, v, hv⟩ := hx
  obtain rfl : record = backslashed := List.mem_singleton.mp hrecord
  cases hv with
  | member hm hw => simp at hm

theorem key_numbers_lead_dotted_not_backslashed :
    (∀ n, 1 ≤ n → n ≤ (numberedOutline dotted true).length → dotted.KeyNumberLeads true n) ∧
    ¬∀ n, 1 ≤ n → n ≤ (numberedOutline backslashed false).length →
      backslashed.KeyNumberLeads false n := by
  constructor
  · apply (key_numbers_lead_iff dotted true).2.2
    constructor
    · simp [dotted, memberNames, namesWithin, EndsInBackslash]
    · simp [dotted, records, Records.ofValue, Records.toList]
  · intro h
    have hmem : spell ["a\\", "b"] ∈ outline backslashed false := by
      have hspell : spell ["a\\", "b"] = "a\\.b" := by decide
      have hname : Path.escapeDots "a\\" = "a\\" := by decide
      have hbelow : Path.escapeDots "b" = "b" := by decide
      rw [outline, mem_pathsOf, hspell]
      simp [recordRoots, backslashed, visits, Node.children, Node.childPath, hname, hbelow]
    have hheld : backslashed.Holds ["a\\", "b"] :=
      ⟨backslashed, by simp [records, Records.ofValue, Records.toList, backslashed], .null,
        .member (List.mem_cons_self ..) (.member (List.mem_cons_self ..) (.here .null))⟩
    have hread : readBack ["a\\", "b"] = ["a.b"] := by decide
    have hlost := (key_numbers_lead_iff backslashed false).2.1.mp h _ hheld hmem
    rw [hread] at hlost
    exact not_holds_backslashed hlost

end Value

end JsonKeys
