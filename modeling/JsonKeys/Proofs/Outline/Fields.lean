import JsonKeys.Proofs.Outline.Below
import JsonKeys.Proofs.Path.RoundTrip
import JsonKeys.Proofs.Value.Leaves

/-!
The keys of an object that pass no wildcard. Readable names that lead to a value through objects
alone have their key, and a key whose path leads anywhere is that of such names.
-/
namespace JsonKeys

/-- No name that is come to through objects alone ends in a backslash, and the root has no empty
one. -/
structure Value.PlainFields (document : Value) : Prop where
  backslash : ∀ name ∈ document.fieldNames, ¬EndsInBackslash name
  first : document.field? "" = none

theorem Value.PlainFields.plain_of_fieldAt? {document v : Value} {names : List String}
    (h : document.PlainFields) (hv : document.fieldAt? names = some v) : Plain names := by
  refine ⟨?_, fun name hname => h.backslash name (subset_fieldNames hv hname)⟩
  intro hfirst
  obtain ⟨others, rfl⟩ := List.head?_eq_some_iff.mp hfirst
  simp [fieldAt?, h.first] at hv

theorem Value.plainFields_of_fieldNames {v : Value}
    (h : ∀ name ∈ v.fieldNames, name ≠ "" ∧ ¬EndsInBackslash name) : v.PlainFields := by
  refine ⟨fun name hname => (h name hname).2, ?_⟩
  rw [Option.eq_none_iff_forall_ne_some]
  intro w hw
  have hat : v.fieldAt? [""] = some w := by
    rw [fieldAt?, hw]
    rfl
  exact (h "" (subset_fieldNames hat List.mem_cons_self)).1 rfl

mutual

theorem Value.fieldNames_subset_memberNames : ∀ v : Value, v.fieldNames ⊆ v.memberNames
  | .object members => namesOfFields_subset_namesWithin members
  | .null | .bool _ | .number _ | .string _ | .array _ => List.nil_subset _

theorem Value.namesOfFields_subset_namesWithin :
    ∀ members : Members Value, namesOfFields members ⊆ namesWithin members
  | [] => List.nil_subset _
  | (name, v) :: ms => by
    have hv := fieldNames_subset_memberNames v
    have hms := namesOfFields_subset_namesWithin ms
    exact List.cons_subset_cons name (List.append_subset.mpr
      ⟨List.subset_append_of_subset_left _ hv, List.subset_append_of_subset_right _ hms⟩)

end

theorem throughWildcard_ofNames (names : List String) :
    (Path.ofNames names).throughWildcard = true ↔ wildcard ∈ names := by
  simp [Path.throughWildcard, Path.ofNames]

theorem Value.firstStep?_of_field? {v w : Value} {name : String} (h : v.field? name = some w) :
    v.firstStep? name = some w := by
  cases v with
  | object members => exact h
  | _ => cases h

/-- What the path of a walk is read back as has that path again. -/
theorem readable_readBack {names : List String} (h : spell names ≠ "") :
    Readable (readBack names) ∧ spell (readBack names) = spell names := by
  have hread := ofText_spell h
  have hdots : (spell names).toList.dropWhile (· = '.') = (spell names).toList := by
    obtain ⟨c, cs, hcs, hc⟩ := Path.toList_text_ofNames_eq_cons (dropWhile_ne_nil_of_spell h)
      (head?_dropWhile_ne names)
    simp [spell_eq_text, hcs, hc]
  have htext : Path.text (Path.ofNames (readBack names)) = spell names := by
    rw [← hread, Path.text_ofText, hdots, String.ofList_toList]
  obtain ⟨-, hback, hsole⟩ := Path.sayable_of_ofText hread
  have hfirst : (readBack names).head? ≠ some "" := by
    intro hempty
    rw [hsole hempty] at htext
    exact h htext.symm
  refine ⟨⟨hfirst, hback⟩, ?_⟩
  rw [spell_eq_text, dropWhile_eq_self_of_head? hfirst, htext]

/-- Names are readable exactly if the path of a walk along them is read back as the names. -/
theorem readable_iff {names : List String} (h : spell names ≠ "") :
    Readable names ↔ Path.ofText (spell names) = Path.ofNames names := by
  constructor
  · intro hreadable
    have hne : names ≠ [] := by
      intro he
      rw [he] at h
      exact h rfl
    exact hreadable.ofText_spell hne
  · intro hread
    rw [ofText_spell h] at hread
    exact Path.ofNames_injective hread ▸ (readable_readBack h).1

section

variable {members : Members Value} {names : List String}

/-- The value that readable names lead to through objects alone is visited, as the first at its
path. -/
theorem mem_visits_of_fieldAt? (h : Readable names) {v : Value}
    (hv : (Value.object members).fieldAt? names = some v) :
    ⟨spell names, v⟩ ∈ visits false (recordRoots (.object members)) [] := by
  have hroot : ∃ after, visits false (recordRoots (.object members)) [] =
      [] ++ ⟨"", .object members⟩ :: after := ⟨_, visits_roots false [.object members] []⟩
  induction names using List.reverseRecOn generalizing v with
  | nil =>
    obtain rfl := Option.some.inj hv
    obtain ⟨after, hwalk⟩ := hroot
    exact hwalk ▸ List.mem_cons_self
  | append_singleton names name ih =>
    rw [Value.fieldAt?_append] at hv
    obtain ⟨u, hu, hlast⟩ := Option.bind_eq_some_iff.mp hv
    have hfield : u.field? name = some v := by simpa [Value.fieldAt?] using hlast
    have hstep := Value.firstStep?_of_field? hfield
    have hplain : Plain names := h.plain_of_append (List.cons_ne_nil name [])
    have hne := h.spell_ne_empty (by simp)
    rw [spell_append_singleton] at hne ⊢
    by_cases hnames : names = []
    · subst hnames
      obtain rfl := Option.some.inj hu
      obtain ⟨after, hwalk⟩ := hroot
      exact mem_visits_of_ahead hwalk hstep hne (by simp)
    · obtain ⟨before, after, hwalk, hahead⟩ :=
        exists_visits_ahead hplain hnames (ih hplain.readable hu) name
      exact mem_visits_of_ahead hwalk hstep hne hahead

/-- Readable names that lead to a value through objects alone have a key, which is read back as
these names. -/
theorem mem_outline_of_fieldAt? (h : Readable names) (hne : names ≠ []) {v : Value}
    (hv : (Value.object members).fieldAt? names = some v) :
    spell names ∈ outline (.object members) false ∧
      Path.ofText (spell names) = Path.ofNames names := by
  refine ⟨?_, h.ofText_spell hne⟩
  rw [outline, mem_pathsOf]
  exact ⟨h.spell_ne_empty hne, _, mem_visits_of_fieldAt? h hv, rfl⟩

/-- A key is read back without a wildcard and its path leads to a value only if it is that of
readable names that lead there through objects alone. An array on the way would have put a wildcard
into the key. -/
theorem exists_fieldAt?_of_get {key : String} (hkey : key ∈ outline (.object members) false)
    (hwild : (Path.ofText key).throughWildcard = false) {v : Value}
    (hget : (Value.object members).get (Path.ofText key) = .ok v) :
    ∃ names, Readable names ∧ names ≠ [] ∧ wildcard ∉ names ∧ key = spell names ∧
      Path.ofText key = Path.ofNames names ∧ (Value.object members).fieldAt? names = some v := by
  obtain ⟨hne, n, hn, rfl⟩ := mem_pathsOf.mp hkey
  obtain ⟨record, -, others, -, hpath⟩ := (Value.object members).visits_spelled false n hn
  rw [hpath] at hne
  obtain ⟨hreadable, hspell⟩ := readable_readBack hne
  have hread : Path.ofText n.path = Path.ofNames (readBack others) := by
    rw [hpath, ofText_spell hne]
  have hnot : wildcard ∉ readBack others := by
    rw [hread, ← Bool.not_eq_true, throughWildcard_ofNames] at hwild
    exact hwild
  have hnames : readBack others ≠ [] := by
    intro he
    rw [he] at hspell
    exact hne hspell.symm
  rw [hread] at hget
  rcases Value.fieldAt?_or_array_of_get hget with hat | ⟨before, items, name, after, hsplit, harray⟩
  · exact ⟨readBack others, hreadable, hnames, hnot, hpath.trans hspell.symm, hread, hat⟩
  · have hbefore : before ≠ [] := by
      intro he
      rw [he] at harray
      cases harray
    rw [hsplit] at hreadable hspell hnot hread
    have hplain : Plain before := hreadable.plain_of_append (List.cons_ne_nil name after)
    have hbelow : Below (spell before) n.path := by
      rw [hpath, ← hspell]
      exact below_spell_append (hplain.spell_ne_empty hbefore) name after
    obtain ⟨rest, hrest⟩ := exists_spell_of_below_array hplain hbefore
      (mem_visits_of_fieldAt? hplain.readable harray) n hn hbelow
    have hsame : readBack (before ++ wildcard :: rest) = before ++ name :: after := by
      apply Path.ofNames_injective
      rw [← ofText_spell (hrest ▸ hpath ▸ hne), ← hrest, hread]
    exact absurd (hsame ▸ wildcard_mem_readBack hplain.2 rest) hnot

end

section

variable {members : Members Value} (hd : (Value.object members).Distinct)
  (hplain : (Value.object members).PlainFields)

include hd hplain

/-- A walk meets a value through objects alone, unless its path is read back with a wildcard. -/
theorem exists_fieldAt?_of_mem_visits {deep : Bool} {n : Node}
    (hn : n ∈ visits deep (recordRoots (.object members)) []) :
    ∃ names, n.path = spell names ∧
      (wildcard ∈ readBack names ∨ (Value.object members).fieldAt? names = some n.value) := by
  obtain ⟨record, hrecord, names, hlead, hpath⟩ := (Value.object members).visits_spelled deep n hn
  obtain rfl := List.mem_singleton.mp hrecord
  refine ⟨names, hpath, ?_⟩
  rcases hlead.fieldAt?_or_wildcard hd with hv | ⟨before, items, after, rfl, hv⟩
  · exact .inr hv
  · exact .inl (wildcard_mem_readBack (hplain.plain_of_fieldAt? hv).2 after)

/-- A key that is read back without a wildcard is that of names that lead to a value. -/
theorem exists_fieldAt?_of_mem_outline {key : String} {deep : Bool}
    (hkey : key ∈ outline (.object members) deep)
    (hwild : (Path.ofText key).throughWildcard = false) :
    ∃ names v, (Value.object members).fieldAt? names = some v ∧ names ≠ [] ∧ wildcard ∉ names ∧
      key = spell names ∧ Path.ofText key = Path.ofNames names := by
  obtain ⟨hne, n, hn, rfl⟩ := mem_pathsOf.mp hkey
  obtain ⟨names, hpath, hmet⟩ := exists_fieldAt?_of_mem_visits hd hplain hn
  have hread : Path.ofText n.path = Path.ofNames (readBack names) := by
    rw [hpath, ofText_spell (hpath ▸ hne)]
  have hnot : wildcard ∉ readBack names := by
    rw [hread, ← Bool.not_eq_true, throughWildcard_ofNames] at hwild
    exact hwild
  have hv := hmet.resolve_left hnot
  rw [(hplain.plain_of_fieldAt? hv).readBack_eq_self] at hread hnot
  refine ⟨names, n.value, hv, ?_, hnot, hpath, hread⟩
  intro he
  rw [hpath, he] at hne
  exact hne rfl

end

end JsonKeys
