import JsonKeys.Proofs.Record.Flat
import Mathlib.Data.List.Dedup

/-!
Leaves that flattening loses. It goes by the keys of the outline, so that a leaf has to be read back
from its key, and past no wildcard; and it joins names by dots as they stand, so that different
leaves may come under one name, of which the one with the last key stays.
-/
namespace JsonKeys.Flat

section

variable {members : Members Value} (hd : (Value.object members).Distinct)

include hd

/-- Leaves that are read back from their keys are told apart by them. -/
theorem leaf_eq_of_spell_eq {leaf other : List String × Value}
    (hleaf : leaf ∈ (Value.object members).leaves) (hkeyed : Keyed leaf.1)
    (hother : other ∈ (Value.object members).leaves) (hkeyed' : Keyed other.1)
    (h : spell leaf.1 = spell other.1) : leaf = other := by
  have hv := ((Value.mem_leaves_iff hd).mp hleaf).1
  have hw := ((Value.mem_leaves_iff hd).mp hother).1
  have hnames := hkeyed.1.spell_injective hkeyed'.1 h
  rw [hnames, hw] at hv
  exact Prod.ext hnames (Option.some.inj hv).symm

variable {flat : Flat} (hflat : ofDocument (.object members) = .ok flat)

include hflat

theorem mem_names_iff {name : String} : name ∈ Members.names flat ↔
    ∃ leaf ∈ (Value.object members).leaves, Keyed leaf.1 ∧ name = ".".intercalate leaf.1 := by
  rw [(ofDocument_eq_ok_iff.mp hflat).2, Members.mem_names_putAll, Members.names_nil]
  simp only [List.not_mem_nil, false_or, Members.mem_names_iff, mem_keyMembers_iff hd]
  constructor
  · intro hmem
    obtain ⟨v, names, hleaf, hkeyed, hname⟩ := hmem
    exact ⟨(names, v), hleaf, hkeyed, hname⟩
  · intro hmem
    obtain ⟨leaf, hleaf, hkeyed, hname⟩ := hmem
    exact ⟨leaf.2, leaf.1, hleaf, hkeyed, hname⟩

/-- A member has the value of a leaf, and no other leaf with its name has a later key. -/
theorem exists_last_leaf {name : String} {v : Value} (h : (name, v) ∈ flat) :
    ∃ names, (names, v) ∈ (Value.object members).leaves ∧ Keyed names ∧
      name = ".".intercalate names ∧ ∀ other ∈ (Value.object members).leaves, Keyed other.1 →
        ".".intercalate other.1 = name → spell other.1 ≤ spell names := by
  have hrow := (ofDocument_eq_ok_iff.mp hflat).2
  have hname : name ∈ Members.names ((outline (.object members) false).filterMap
      (keyMember? (.object members))) := by
    have hmem := Members.mem_names_iff.mpr ⟨v, h⟩
    rw [hrow, Members.mem_names_putAll] at hmem
    exact hmem.resolve_left List.not_mem_nil
  obtain ⟨before, w, after, hsplit, hlast⟩ := Members.exists_last_of_mem_names hname
  have hv : w = v := by
    have hget := (Members.get?_eq_some_iff (nodup_names hflat)).mpr h
    rw [hrow, hsplit, Members.get?_putAll_of_last _ _ _ hlast] at hget
    exact Option.some.inj hget
  subst hv
  -- the keys split where their members do
  obtain ⟨keys, rest, hkeys, -, hrest⟩ := List.filterMap_eq_append_iff.mp hsplit
  obtain ⟨skipped, key, later, rfl, -, hkey, hlater⟩ := List.filterMap_eq_cons_iff.mp hrest
  have hmem : key ∈ outline (.object members) false := by
    rw [hkeys]
    simp
  obtain ⟨names, hleaf, hkeyed, rfl, hdotted⟩ := exists_mem_leaves_of_keyMember? hd hmem hkey
  refine ⟨names, hleaf, hkeyed, hdotted, ?_⟩
  intro other hother hkeyed' hsame
  obtain ⟨hmem', hkey'⟩ := keyMember?_of_mem_leaves hd hother hkeyed'
  have hsorted : (outline (.object members) false).Pairwise (· < ·) := pairwise_pathsOf _
  rw [hkeys, ← List.append_assoc] at hsorted hmem'
  rcases List.mem_append.mp hmem' with hearly | hlate
  · have hlt := (List.pairwise_append.mp hsorted).2.2 _ hearly _ List.mem_cons_self
    exact String.not_lt.mp (String.lt_asymm hlt)
  · rcases List.mem_cons.mp hlate with he | hlate
    · exact he ▸ String.le_refl _
    · have hafter : (".".intercalate other.1, other.2) ∈ after := by
        rw [← hlater]
        exact List.mem_filterMap.mpr ⟨_, hlate, hkey'⟩
      rw [hsame] at hafter
      exact absurd (Members.mem_names_iff.mpr ⟨_, hafter⟩) hlast

/-- A leaf's value is put under its name exactly if no other leaf with the name has a later key. -/
theorem mem_iff_last_leaf {name : String} {v : Value} : (name, v) ∈ flat ↔
    ∃ names, (names, v) ∈ (Value.object members).leaves ∧ Keyed names ∧
      name = ".".intercalate names ∧ ∀ other ∈ (Value.object members).leaves, Keyed other.1 →
        ".".intercalate other.1 = name → spell other.1 ≤ spell names := by
  refine ⟨exists_last_leaf hd hflat, ?_⟩
  intro hmem
  obtain ⟨names, hleaf, hkeyed, hname, hlast⟩ := hmem
  have hnamed : name ∈ Members.names flat :=
    (mem_names_iff hd hflat).mpr ⟨(names, v), hleaf, hkeyed, hname⟩
  obtain ⟨w, hw⟩ := Members.mem_names_iff.mp hnamed
  obtain ⟨others, hother, hkeyed', hname', hlast'⟩ := exists_last_leaf hd hflat hw
  have hspell : spell names = spell others :=
    String.le_antisymm (hlast' _ hleaf hkeyed hname.symm) (hlast _ hother hkeyed' hname'.symm)
  have he := leaf_eq_of_spell_eq hd hleaf hkeyed hother hkeyed' hspell
  obtain rfl : v = w := congrArg Prod.snd he
  exact hw

end

/-- The names of the leaves that are read back from their keys, each as often as there are leaves
that have it. -/
def dottedNames (document : Value) : List String :=
  (document.leaves.filter fun leaf => Keyed leaf.1).map fun leaf => ".".intercalate leaf.1

theorem length_eq_dedup {members : Members Value} (hd : (Value.object members).Distinct)
    {flat : Flat} (hflat : ofDocument (.object members) = .ok flat) :
    flat.length = (dottedNames (.object members)).dedup.length := by
  have hperm : (Members.names flat).Perm (dottedNames (.object members)).dedup := by
    rw [List.perm_ext_iff_of_nodup (nodup_names hflat) (List.nodup_dedup _)]
    intro name
    rw [List.mem_dedup, mem_names_iff hd hflat]
    simp only [dottedNames, List.mem_map, List.mem_filter, decide_eq_true_eq, and_assoc,
      @eq_comm _ name]
  rw [← hperm.length_eq, Members.names, List.length_map]

theorem dottedNames_of_keyed {document : Value} (h : ∀ leaf ∈ document.leaves, Keyed leaf.1) :
    dottedNames document = document.leaves.map fun leaf => ".".intercalate leaf.1 := by
  rw [dottedNames, List.filter_eq_self.mpr (by simpa using h)]

/-- No leaf is lost exactly if all are read back from their keys and their names differ. -/
theorem length_dedup_dottedNames_eq_iff (document : Value) :
    (dottedNames document).dedup.length = document.leaves.length ↔
      (∀ leaf ∈ document.leaves, Keyed leaf.1) ∧
        (document.leaves.map fun leaf => ".".intercalate leaf.1).Nodup := by
  constructor
  · intro h
    have hdedup := (List.dedup_sublist (dottedNames document)).length_le
    rw [h, dottedNames, List.length_map] at hdedup
    have hfilter := List.length_filter_le (fun leaf => decide (Keyed leaf.1)) document.leaves
    have hall : ∀ leaf ∈ document.leaves, Keyed leaf.1 := by
      simpa using List.length_filter_eq_length_iff.mp (Nat.le_antisymm hfilter hdedup)
    rw [dottedNames_of_keyed hall] at h
    refine ⟨hall, List.dedup_eq_self.mp ?_⟩
    exact (List.dedup_sublist _).eq_of_length (h.trans (List.length_map _).symm)
  · intro h
    obtain ⟨hall, hnodup⟩ := h
    rw [dottedNames_of_keyed hall, hnodup.dedup, List.length_map]

/-- An object that is flattened has as many members then as there are different names among the
leaves that are read back from their keys, which are those whose key is listed and is read as their
names, past no wildcard. Each member has the value of the leaf whose key is the last. -/
theorem ofDocument_lasts {members : Members Value} {flat : Flat}
    (hd : (Value.object members).Distinct) (hflat : ofDocument (.object members) = .ok flat) :
    (∀ leaf ∈ (Value.object members).leaves, Keyed leaf.1 ↔
        spell leaf.1 ∈ outline (.object members) false ∧
          Path.ofText (spell leaf.1) = Path.ofNames leaf.1 ∧ wildcard ∉ leaf.1) ∧
      flat.length = (dottedNames (.object members)).dedup.length ∧
      (flat.length = (Value.object members).leaves.length ↔
        (∀ leaf ∈ (Value.object members).leaves, Keyed leaf.1) ∧
          ((Value.object members).leaves.map fun leaf => ".".intercalate leaf.1).Nodup) ∧
      ∀ name v, (name, v) ∈ flat ↔ ∃ names, (names, v) ∈ (Value.object members).leaves ∧
        Keyed names ∧ name = ".".intercalate names ∧
        ∀ other ∈ (Value.object members).leaves, Keyed other.1 →
          ".".intercalate other.1 = name → spell other.1 ≤ spell names := by
  have hlength := length_eq_dedup hd hflat
  refine ⟨fun leaf => keyed_iff hd, hlength, ?_, fun name v => mem_iff_last_leaf hd hflat⟩
  rw [hlength]
  exact length_dedup_dottedNames_eq_iff (.object members)

/-- A backslash loses nothing at the end of the last name. -/
example : ofDocument (.object [("a\\", .null), ("b", .object [("", .bool true)])]) =
    .ok [("a\\", .null), ("b.", .bool true)] := by cbv

/-- Two leaves of one name, one behind a name that reads as a wildcard, one whose key is that of
another and one that has no key. -/
def clashing : Members Value :=
  [("a", .object [("b", .null)]), ("a.b", .bool true), ("#", .bool false),
    ("a\\", .object [("b", .bool false)]), ("", .null)]

theorem distinct_clashing : (Value.object clashing).Distinct := by
  simp [clashing, Value.Distinct, Value.MembersDistinct]

theorem ofDocument_clashing : ofDocument (.object clashing) = .ok [("a.b", .bool true)] := by cbv

theorem ofDocument_lasts_clashing :
    (Value.object clashing).Distinct ∧ ofDocument (.object clashing) = .ok [("a.b", .bool true)] ∧
      (dottedNames (.object clashing)).dedup.length = 1 ∧
      (Value.object clashing).leaves.length ≠ 1 ∧
      ∃ names, (names, .bool true) ∈ (Value.object clashing).leaves ∧ Keyed names ∧
        "a.b" = ".".intercalate names ∧ spell ["a", "b"] ≤ spell names := by
  obtain ⟨-, hlength, hlost, hmem⟩ := ofDocument_lasts distinct_clashing ofDocument_clashing
  refine ⟨distinct_clashing, ofDocument_clashing, hlength.symm, ?_, ?_⟩
  · intro hall
    have hkeyed := (hlost.mp hall.symm).1 (["#"], .bool false)
      (by simp [clashing, Value.leaves, Value.memberLeaves])
    exact absurd hkeyed (by decide)
  · obtain ⟨names, hleaf, hkeyed, hname, hlast⟩ := (hmem "a.b" (.bool true)).mp List.mem_cons_self
    refine ⟨names, hleaf, hkeyed, hname, hlast (["a", "b"], .null) ?_ (by decide) rfl⟩
    simp [clashing, Value.leaves, Value.memberLeaves]

/-- Flattening may lose leaves without a failure. -/
theorem not_length_eq_leaves : ¬∀ (members : Members Value) (flat : Flat),
    (Value.object members).Distinct → ofDocument (.object members) = .ok flat →
      flat.length = (Value.object members).leaves.length := by
  intro h
  have hall := h clashing _ distinct_clashing ofDocument_clashing
  exact absurd hall (by decide)

end JsonKeys.Flat
