import JsonKeys.Proofs.KeyExpr.Dotted

/-!
Which paths are read back from their text: those that are read from any text at all. A text is read
in two passes, of which the first looks behind each dot for a backslash and the second takes the
escapes out of the pieces.
-/
namespace JsonKeys.Path

/-- The pieces between the dots of a text, escapes and all. A dot right behind a backslash is part
of its piece; `before` is what stands in front of the text. -/
def cuts (before : Option Char) : List Char → List (List Char)
  | [] => [[]]
  | c :: cs =>
    if c = '.' ∧ before ≠ some '\\' then [] :: cuts (some c) cs else consHead c (cuts (some c) cs)

/-- Takes the backslash from every backslash and dot, from left to right. -/
def unescape : List Char → List Char
  | [] => []
  | '\\' :: '.' :: cs => '.' :: unescape cs
  | c :: cs => c :: unescape cs

theorem exists_cuts (before : Option Char) (cs : List Char) :
    ∃ piece rest, cuts before cs = piece :: rest := by
  cases cs with
  | nil => exact ⟨[], [], rfl⟩
  | cons c cs =>
    unfold cuts
    split
    · exact ⟨_, _, rfl⟩
    · cases cuts (some c) cs <;> exact ⟨_, _, rfl⟩

/-- What stands in front of a text matters to a dot only. -/
theorem cuts_congr {cs : List Char} (h : cs.head? ≠ some '.') (before other : Option Char) :
    cuts before cs = cuts other cs := by
  cases cs with
  | nil => rfl
  | cons c cs =>
    have hc : c ≠ '.' := by simpa using h
    simp only [cuts, hc, false_and, if_false]

/-- The first piece begins as the text does. -/
theorem head?_of_cuts {before : Option Char} {cs piece : List Char} {rest : List (List Char)}
    (h : cuts before cs = piece :: rest) (hcs : cs.head? ≠ some '.') : piece.head? = cs.head? := by
  cases cs with
  | nil =>
    cases h
    rfl
  | cons c cs =>
    have hc : c ≠ '.' := by simpa using hcs
    obtain ⟨first, others, hfirst⟩ := exists_cuts (some c) cs
    simp only [cuts, hc, false_and, if_false, hfirst, consHead] at h
    rw [← (List.cons.inj h).1]
    rfl

theorem unescape_cons {c : Char} {cs : List Char} (h : c = '\\' → cs.head? ≠ some '.') :
    unescape (c :: cs) = c :: unescape cs := by
  rw [unescape]
  intro rest hc hcs
  subst hc hcs
  exact h rfl rfl

/-- Reading in one pass and in two comes to the same. -/
theorem pieces_eq_map_unescape {before : Option Char} (h : before ≠ some '\\') (cs : List Char) :
    pieces cs = (cuts before cs).map unescape := by
  fun_induction pieces cs generalizing before with
  | case1 => rfl
  | case2 cs ih =>
    obtain ⟨piece, rest, hcuts⟩ := exists_cuts (some '.') cs
    have hdot : some '.' ≠ some '\\' := by decide
    rw [ih hdot]
    simp [cuts, hcuts, consHead, unescape]
  | case3 cs hnext ih =>
    have hdot : some '.' ≠ some '\\' := by decide
    rw [ih hdot]
    simp [cuts, h, unescape]
  | case4 c cs hnext hc ih =>
    have hhead : c = '\\' → cs.head? ≠ some '.' := by
      intro hback hdot
      obtain ⟨rest, hrest⟩ := List.head?_eq_some_iff.mp hdot
      exact hnext rest hback hrest
    have hpieces : pieces cs = (cuts (some c) cs).map unescape := by
      by_cases hback : c = '\\'
      · rw [cuts_congr (hhead hback) (some c) none]
        exact ih (by decide)
      · exact ih fun hsome => hback (Option.some.inj hsome)
    obtain ⟨piece, rest, hcuts⟩ := exists_cuts (some c) cs
    have hpiece : unescape (c :: piece) = c :: unescape piece := by
      apply unescape_cons
      intro hback
      rw [head?_of_cuts hcuts (hhead hback)]
      exact hhead hback
    rw [hpieces, hcuts]
    simp [cuts, hc, hcuts, consHead, hpiece]

/-- The path that a text names, read in two passes. -/
theorem ofText_eq_cuts (t : String) :
    ofText t =
      ofNames ((cuts none (t.toList.dropWhile (· = '.'))).map fun piece =>
        String.ofList (unescape piece)) := by
  have hnone : none ≠ some '\\' := by decide
  rw [ofText, pieces_eq_map_unescape hnone, ofNames, List.map_map, List.map_map]
  rfl

theorem unescape_eq_nil_iff {cs : List Char} : unescape cs = [] ↔ cs = [] := by
  fun_cases unescape cs <;> simp

theorem getLast?_unescape (cs : List Char) : (unescape cs).getLast? = cs.getLast? := by
  fun_induction unescape cs with
  | case1 => rfl
  | case2 cs ih => simp [List.getLast?_cons, ih]
  | case3 c cs hnext ih => simp [List.getLast?_cons, ih]

/-- A piece with a dot behind it does not end in a backslash, and if it is empty none stands in
front of it. -/
theorem getLast?_of_cuts {before : Option Char} {cs piece : List Char} {rest : List (List Char)}
    (h : cuts before cs = piece :: rest) (hrest : rest ≠ []) :
    piece.getLast?.or before ≠ some '\\' ∧ ∀ other ∈ rest.dropLast, other.getLast? ≠ some '\\' := by
  induction cs generalizing before piece rest with
  | nil =>
    cases h
    exact absurd rfl hrest
  | cons c cs ih =>
    obtain ⟨first, others, hcuts⟩ := exists_cuts (some c) cs
    unfold cuts at h
    split at h
    · next hcut =>
      obtain ⟨rfl, rfl⟩ := List.cons.inj h
      refine ⟨hcut.2, ?_⟩
      rw [hcuts]
      intro other hother
      by_cases hothers : others = []
      · subst hothers
        cases hother
      · obtain ⟨hfirst, hlater⟩ := ih hcuts hothers
        rw [List.dropLast_cons_of_ne_nil hothers] at hother
        rcases List.mem_cons.mp hother with rfl | hother
        · intro hback
          rw [hback] at hfirst
          exact hfirst rfl
        · exact hlater other hother
    · rw [hcuts] at h
      obtain ⟨rfl, rfl⟩ := List.cons.inj h
      obtain ⟨hfirst, hlater⟩ := ih hcuts hrest
      refine ⟨?_, hlater⟩
      rw [List.getLast?_cons]
      cases hlast : first.getLast? <;> simpa [hlast] using hfirst

/-- Only a text with a dot in front has an empty piece in front of others. -/
theorem head?_of_cuts_nil {cs : List Char} {rest : List (List Char)} (h : cuts none cs = [] :: rest)
    (hrest : rest ≠ []) : cs.head? = some '.' := by
  cases cs with
  | nil =>
    cases h
    exact absurd rfl hrest
  | cons c cs =>
    by_cases hc : c = '.'
    · rw [hc]
      rfl
    · have hhead := head?_of_cuts h (by simpa using hc)
      cases hhead

theorem endsInBackslash_unescape_iff {piece : List Char} :
    EndsInBackslash (String.ofList (unescape piece)) ↔ piece.getLast? = some '\\' := by
  rw [EndsInBackslash, String.toList_ofList, getLast?_unescape]

/-- The names of a path that was read can be told from the text of the path. -/
theorem sayable_of_ofText {t : String} {names : List String} (h : ofText t = ofNames names) :
    KeyExpr.Sayable names := by
  rw [ofText_eq_cuts] at h
  obtain rfl := ofNames_injective h
  have hdots : (t.toList.dropWhile (· = '.')).head? ≠ some '.' := by
    have hnot := List.head?_dropWhile_not (fun c : Char => decide (c = '.')) t.toList
    intro hdot
    rw [hdot] at hnot
    simp at hnot
  obtain ⟨piece, rest, hcuts⟩ := exists_cuts none (t.toList.dropWhile (· = '.'))
  rw [hcuts]
  refine ⟨List.cons_ne_nil _ _, ?_, ?_⟩
  · intro name hname
    rw [← List.map_dropLast] at hname
    obtain ⟨other, hother, rfl⟩ := List.mem_map.mp hname
    rw [endsInBackslash_unescape_iff]
    by_cases hrest : rest = []
    · subst hrest
      cases hother
    · obtain ⟨hfirst, hlater⟩ := getLast?_of_cuts hcuts hrest
      rw [Option.or_none] at hfirst
      rw [List.dropLast_cons_of_ne_nil hrest] at hother
      rcases List.mem_cons.mp hother with rfl | hother
      · exact hfirst
      · exact hlater other hother
  · intro hempty
    have hunescape : unescape piece = [] := String.ofList_eq_empty_iff.mp (Option.some.inj hempty)
    have hpiece : piece = [] := unescape_eq_nil_iff.mp hunescape
    subst hpiece
    by_cases hrest : rest = []
    · subst hrest
      rfl
    · exact absurd (head?_of_cuts_nil hcuts hrest) hdots

/-- The paths of names that are read back from their text are those that are read from any text, and
those whose names can be told from it: only the last may end in a backslash, and the first is empty
only if it is alone. -/
theorem ofText_text_iff (names : List String) (h : names ≠ []) :
    (ofText (text (ofNames names)) = ofNames names ↔ ∃ t, ofText t = ofNames names) ∧
    ((∃ t, ofText t = ofNames names) ↔
      (∀ name ∈ names.dropLast, ¬EndsInBackslash name) ∧ (names.head? = some "" → names = [""])) ∧
    ∀ t, ofText (text (ofText t)) = ofText t := by
  refine ⟨⟨fun hread => ⟨_, hread⟩, ?_⟩, ⟨?_, ?_⟩, ?_⟩
  · intro hread
    obtain ⟨t, ht⟩ := hread
    exact (sayable_of_ofText ht).ofText_text
  · intro hread
    obtain ⟨t, ht⟩ := hread
    exact (sayable_of_ofText ht).2
  · intro hnames
    have hsayable : KeyExpr.Sayable names := ⟨h, hnames⟩
    exact ⟨_, hsayable.ofText_text⟩
  · intro t
    have hsayable := sayable_of_ofText (ofText_eq_cuts t)
    rw [ofText_eq_cuts t, hsayable.ofText_text]

/-- A backslash hides the dot behind it only if it ends a name that is not the last. -/
theorem ofText_text_iff_backslashes :
    let told := ["\\.", "", "c\\"]
    let hidden := ["a\\", "b"]
    (told ≠ [] ∧ ofText (text (ofNames told)) = ofNames told) ∧
      hidden ≠ [] ∧ ofText (text (ofNames hidden)) ≠ ofNames hidden ∧
      ∀ t, ofText t ≠ ofNames hidden := by
  intro told hidden
  have htold : told ≠ [] := List.cons_ne_nil _ _
  have hhidden : hidden ≠ [] := List.cons_ne_nil _ _
  have hnames : (∀ name ∈ told.dropLast, ¬EndsInBackslash name) ∧
      (told.head? = some "" → told = [""]) := by
    decide
  have hback : ¬∀ name ∈ hidden.dropLast, ¬EndsInBackslash name := by decide
  obtain ⟨hiff, hcondition, -⟩ := ofText_text_iff told htold
  obtain ⟨hiff', hcondition', -⟩ := ofText_text_iff hidden hhidden
  have hnone : ¬∃ t, ofText t = ofNames hidden := fun hread => hback (hcondition'.mp hread).1
  exact ⟨⟨htold, hiff.mpr (hcondition.mpr hnames)⟩, hhidden, fun hread => hnone (hiff'.mp hread),
    fun t ht => hnone ⟨t, ht⟩⟩

end JsonKeys.Path
