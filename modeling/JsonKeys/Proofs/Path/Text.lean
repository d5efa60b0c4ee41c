import JsonKeys.Path.Basic

/-!
Names joined to the text of a path, and read back from it. Escaping leaves backslashes alone, so
that a name with one at its end hides the dot behind it.
-/
namespace JsonKeys

/-- The last character is a backslash. -/
def EndsInBackslash (name : String) : Prop := name.toList.getLast? = some '\\'

instance (name : String) : Decidable (EndsInBackslash name) :=
  inferInstanceAs (Decidable (name.toList.getLast? = some '\\'))

namespace Path

def ofNames (names : List String) : Path := names.map .name

/-- Joins a name that ends in a backslash to the one behind it, with the dot in between. -/
def fuse (name : String) : List String → List String
  | [] => [name]
  | next :: names => String.ofList (name.toList.dropLast ++ '.' :: next.toList) :: names

/-- The names that are read back from the text of the names. -/
def reread : List String → List String
  | [] => []
  | [name] => [name]
  | name :: next :: names =>
    if EndsInBackslash name then fuse name (reread (next :: names))
    else name :: reread (next :: names)

theorem escapeChars_append (cs ds : List Char) :
    escapeChars (cs ++ ds) = escapeChars cs ++ escapeChars ds := by
  induction cs with
  | nil => rfl
  | cons c cs ih =>
    by_cases hc : c = '.'
    · simp [escapeChars, hc, ih]
    · simp [escapeChars, hc, ih]

theorem head?_escapeChars_ne (cs : List Char) : (escapeChars cs).head? ≠ some '.' := by
  cases cs with
  | nil => simp [escapeChars]
  | cons c cs =>
    by_cases hc : c = '.'
    · simp [escapeChars, hc]
    · simp [escapeChars, hc]

theorem escapeChars_eq_nil_iff {cs : List Char} : escapeChars cs = [] ↔ cs = [] := by
  cases cs with
  | nil => simp [escapeChars]
  | cons c cs => by_cases hc : c = '.' <;> simp [escapeChars, hc]

theorem getLast?_escapeChars (cs : List Char) : (escapeChars cs).getLast? = cs.getLast? := by
  induction cs with
  | nil => rfl
  | cons c cs ih => by_cases hc : c = '.' <;> simp [escapeChars, hc, List.getLast?_cons, ih]

/-- In an escaped name a backslash stands before every dot. -/
theorem getLast?_of_escapeChars_eq {cs before after : List Char}
    (h : escapeChars cs = before ++ '.' :: after) : before.getLast? = some '\\' := by
  induction cs generalizing before with
  | nil => simp [escapeChars] at h
  | cons c cs ih =>
    cases before with
    | nil =>
      have hhead := head?_escapeChars_ne (c :: cs)
      rw [h] at hhead
      exact absurd rfl hhead
    | cons d ds =>
      by_cases hc : c = '.'
      · rw [escapeChars, if_pos hc, List.cons_append, List.cons.injEq] at h
        obtain ⟨rfl, h⟩ := h
        cases ds with
        | nil => rfl
        | cons e es =>
          rw [List.getLast?_cons, List.getLast?_cons, ih (List.cons.inj h).2]
          rfl
      · rw [escapeChars, if_neg hc, List.cons_append, List.cons.injEq] at h
        rw [List.getLast?_cons, ih h.2]
        rfl

theorem pieces_cons {c : Char} {cs : List Char} (hc : c ≠ '.')
    (h : c = '\\' → cs.head? ≠ some '.') : pieces (c :: cs) = consHead c (pieces cs) := by
  rw [pieces, if_neg hc]
  intro rest hc hcs
  subst hc hcs
  exact h rfl rfl

theorem foldr_consHead (cs piece : List Char) (rest : List (List Char)) :
    cs.foldr consHead (piece :: rest) = (cs ++ piece) :: rest := by
  induction cs with
  | nil => rfl
  | cons c cs ih => simp [ih, consHead]

/-- An escaped name stays one piece, unless its last backslash meets a dot. -/
theorem pieces_escapeChars_append {cs rest : List Char}
    (h : cs.getLast? = some '\\' → rest.head? ≠ some '.') :
    pieces (escapeChars cs ++ rest) = cs.foldr consHead (pieces rest) := by
  induction cs with
  | nil => rfl
  | cons c cs ih =>
    have ht : cs.getLast? = some '\\' → rest.head? ≠ some '.' := by
      intro hl
      apply h
      simp [List.getLast?_cons, hl]
    by_cases hc : c = '.'
    · subst hc
      simp [escapeChars, pieces, ih ht]
    · have hnext : c = '\\' → (escapeChars cs ++ rest).head? ≠ some '.' := by
        intro he
        subst he
        cases cs with
        | nil => exact h rfl
        | cons d ds =>
          by_cases hdot : d = '.'
          · simp [escapeChars, hdot]
          · simp [escapeChars, hdot]
      simp only [escapeChars, hc, if_false, List.cons_append, List.foldr_cons]
      rw [pieces_cons hc hnext, ih ht]

theorem pieces_escapeChars (cs : List Char) : pieces (escapeChars cs) = [cs] := by
  have h : pieces (escapeChars cs ++ []) = cs.foldr consHead (pieces []) :=
    pieces_escapeChars_append (by simp)
  simpa [pieces, foldr_consHead] using h

theorem escapeDots_injective {name other : String} (h : escapeDots name = escapeDots other) :
    name = other := by
  have hchars : escapeChars name.toList = escapeChars other.toList := String.ofList_injective h
  have hpieces := pieces_escapeChars name.toList
  rw [hchars, pieces_escapeChars] at hpieces
  exact (String.toList_injective (List.singleton_inj.mp hpieces)).symm

theorem escapeDots_eq_self {name : String} (h : '.' ∉ name.toList) : escapeDots name = name := by
  have hchars : ∀ cs : List Char, '.' ∉ cs → escapeChars cs = cs := by
    intro cs hcs
    induction cs with
    | nil => rfl
    | cons c cs ih =>
      simp only [List.mem_cons, not_or] at hcs
      rw [escapeChars, if_neg (Ne.symm hcs.1), ih hcs.2]
  rw [escapeDots, hchars _ h, String.ofList_toList]

theorem toList_text_ofNames (names : List String) :
    (text (ofNames names)).toList =
      List.intercalate ['.'] (names.map fun name => escapeChars name.toList) := by
  have h : ∀ name, (segmentText (.name name)).toList = escapeChars name.toList := by
    intro name
    simp [segmentText, escapeDots]
  simp [text, ofNames, String.toList_intercalate, Function.comp_def, h]

theorem reread_ne_nil {names : List String} (h : names ≠ []) : reread names ≠ [] := by
  fun_cases reread names with
  | case1 => contradiction
  | case2 => simp
  | case3 name next names =>
    cases reread (next :: names) <;> simp [fuse]
  | case4 => simp

theorem pieces_intercalate {names : List String} (h : names ≠ []) :
    pieces (List.intercalate ['.'] (names.map fun name => escapeChars name.toList)) =
      (reread names).map String.toList := by
  induction names with
  | nil => contradiction
  | cons name names ih =>
    cases names with
    | nil => simp [reread, pieces_escapeChars]
    | cons next names =>
      have ih := ih (by simp)
      simp only [List.map_cons, List.intercalate_cons_cons, List.append_assoc,
        List.singleton_append] at ih ⊢
      generalize hrest : List.intercalate ['.'] _ = rest at ih ⊢
      by_cases hb : EndsInBackslash name
      · obtain ⟨cs, hcs⟩ := List.getLast?_eq_some_iff.mp hb
        have hne : reread (next :: names) ≠ [] := reread_ne_nil (by simp)
        obtain ⟨first, others, hr⟩ := List.exists_cons_of_ne_nil hne
        have he : escapeChars name.toList ++ '.' :: rest =
            escapeChars cs ++ '\\' :: '.' :: rest := by
          simp [hcs, escapeChars_append, escapeChars]
        rw [he, pieces_escapeChars_append (by simp), pieces, ih, reread, if_pos hb, hr]
        simp [consHead, foldr_consHead, fuse, hcs]
      · have hdot : pieces ('.' :: rest) = [] :: pieces rest := by simp [pieces]
        rw [pieces_escapeChars_append (fun hl => absurd hl hb), reread, if_neg hb, hdot,
          foldr_consHead, ih]
        simp

theorem pieces_ne_nil (cs : List Char) : pieces cs ≠ [] := by
  fun_cases pieces cs with
  | case1 => simp
  | case2 cs => cases pieces cs <;> simp [consHead]
  | case3 cs => simp
  | case4 c cs => cases pieces cs <;> simp [consHead]

theorem intercalate_consHead (c : Char) {pieces : List (List Char)} (h : pieces ≠ []) :
    List.intercalate ['.'] ((consHead c pieces).map escapeChars) =
      escapeChars [c] ++ List.intercalate ['.'] (pieces.map escapeChars) := by
  obtain ⟨piece, rest, rfl⟩ := List.exists_cons_of_ne_nil h
  have hescape : escapeChars (c :: piece) = escapeChars [c] ++ escapeChars piece :=
    escapeChars_append [c] piece
  cases rest with
  | nil => simp [consHead, hescape]
  | cons next rest => simp [consHead, hescape, List.intercalate_cons_cons]

/-- The pieces of a text, escaped again and joined, are the text. -/
theorem intercalate_pieces (cs : List Char) :
    List.intercalate ['.'] ((pieces cs).map escapeChars) = cs := by
  fun_induction pieces cs with
  | case1 => rfl
  | case2 cs ih =>
    rw [intercalate_consHead '.' (pieces_ne_nil cs), ih]
    rfl
  | case3 cs hnext ih =>
    obtain ⟨piece, rest, hpieces⟩ := List.exists_cons_of_ne_nil (pieces_ne_nil cs)
    rw [hpieces, List.map_cons] at ih
    rw [hpieces, List.map_cons, List.map_cons, List.intercalate_cons_cons, ih]
    rfl
  | case4 c cs hnext hc ih =>
    rw [intercalate_consHead c (pieces_ne_nil cs), ih]
    simp [escapeChars, hc]

/-- A path that was read has the text that it was read from, but for the dots in front. -/
theorem text_ofText (t : String) :
    text (ofText t) = String.ofList (t.toList.dropWhile (· = '.')) := by
  have hread : ofText t =
      ofNames ((pieces (t.toList.dropWhile (· = '.'))).map String.ofList) := by
    rw [ofText, ofNames, List.map_map]
    rfl
  apply String.toList_injective
  rw [hread, toList_text_ofNames, List.map_map, String.toList_ofList]
  have hchars : (fun name : String => escapeChars name.toList) ∘ String.ofList = escapeChars := by
    funext cs
    rw [Function.comp_apply, String.toList_ofList]
  rw [hchars, intercalate_pieces]

theorem toList_text_ofNames_eq_cons {names : List String} (h : names ≠ [])
    (hfirst : names.head? ≠ some "") :
    ∃ c cs, (text (ofNames names)).toList = c :: cs ∧ c ≠ '.' := by
  obtain ⟨name, others, rfl⟩ := List.exists_cons_of_ne_nil h
  have hname : escapeChars name.toList ≠ [] := by
    intro he
    apply hfirst
    simpa [escapeChars_eq_nil_iff] using he
  have hhead := head?_escapeChars_ne name.toList
  obtain ⟨c, cs, hcs⟩ := List.exists_cons_of_ne_nil hname
  have hc : c ≠ '.' := by simpa [hcs] using hhead
  rw [toList_text_ofNames]
  cases others with
  | nil => simp [hcs, hc]
  | cons next others => simp [List.intercalate_cons_cons, hcs, hc]

/-- The names are read back from their text as `reread` has it, unless it begins with a dot. -/
theorem ofText_text_ofNames {names : List String} (h : names ≠ [])
    (hfirst : names.head? ≠ some "") :
    ofText (text (ofNames names)) = ofNames (reread names) := by
  obtain ⟨c, cs, hcs, hc⟩ := toList_text_ofNames_eq_cons h hfirst
  have hdots : (c :: cs).dropWhile (· = '.') = c :: cs := by simp [hc]
  unfold ofText
  rw [hcs, hdots, ← hcs, toList_text_ofNames, pieces_intercalate h]
  simp [ofNames, Function.comp_def]

theorem text_ofNames_append_singleton {names : List String} (h : names ≠ []) (name : String) :
    text (ofNames (names ++ [name])) = text (ofNames names) ++ "." ++ escapeDots name := by
  unfold text ofNames
  rw [List.map_append, List.map_append, String.intercalate_append_of_ne_nil (by simpa using h)
    (by simp)]
  simp [segmentText]

theorem reread_eq_self {names : List String} (h : ∀ name ∈ names.dropLast, ¬EndsInBackslash name) :
    reread names = names := by
  fun_induction reread names with
  | case1 => rfl
  | case2 => rfl
  | case3 name next names hb ih => exact absurd hb (h name (by simp))
  | case4 name next names hb ih =>
    rw [ih]
    intro other ho
    exact h other (by simp [ho])

/-- Names that do not end in a backslash are read back apart from what follows them. -/
theorem reread_append {names : List String} (h : ∀ name ∈ names, ¬EndsInBackslash name)
    (others : List String) : reread (names ++ others) = names ++ reread others := by
  induction names with
  | nil => rfl
  | cons name names ih =>
    have hname : ¬EndsInBackslash name := h name List.mem_cons_self
    have ih := ih fun other ho => h other (List.mem_cons_of_mem _ ho)
    rw [List.cons_append, List.cons_append, ← ih]
    cases names ++ others with
    | nil => rfl
    | cons next rest => rw [reread, if_neg hname]

theorem ofNames_injective {names others : List String} (h : ofNames names = ofNames others) :
    names = others :=
  (List.map_inj_right fun _ _ hname => Segment.name.inj hname).mp h

end Path

end JsonKeys
