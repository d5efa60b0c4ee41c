import JsonKeys.Outline.Walk
import JsonKeys.Record.Basic
import JsonKeys.Proofs.Path.Text
import JsonKeys.Proofs.Outline.Walk
import Mathlib.Data.List.Induction
import Mathlib.Data.List.Permutation

/-!
Where names lead in a document, and the texts under which a walk meets the values there. A walk
passes over empty names at the front, for it takes the empty path for the root's.
-/
namespace JsonKeys

namespace Value

/-- The names lead from a value to another. Each is that of a member, or `#` for some element. -/
inductive Leads : Value → List String → Value → Prop
  | here (v : Value) : Leads v [] v
  | member {members : Members Value} {name : String} {names : List String} {v w : Value}
      (hv : (name, v) ∈ members) (hw : Leads v names w) : Leads (.object members) (name :: names) w
  | element {items : List Value} {names : List String} {v w : Value}
      (hv : v ∈ items) (hw : Leads v names w) : Leads (.array items) (wildcard :: names) w

/-- The elements of a root array, or else the root. -/
def records (document : Value) : List Value := (Records.ofValue document false).toList

/-- From some record of the document the names lead to a value. -/
def Holds (document : Value) (names : List String) : Prop :=
  ∃ record ∈ document.records, ∃ v, record.Leads names v

theorem Leads.append {u v w : Value} {names others : List String} (h : u.Leads names v)
    (hw : v.Leads others w) : u.Leads (names ++ others) w := by
  induction h with
  | here => exact hw
  | member hv _ ih => exact .member hv (ih hw)
  | element hv _ ih => exact .element hv (ih hw)

end Value

theorem escapeDots_wildcard : Path.escapeDots wildcard = wildcard := by decide

theorem Node.mem_children {node child : Node} :
    child ∈ node.children ↔ ∃ name v, node.value.Leads [name] v ∧
      child = ⟨childPath node.path (Path.escapeDots name), v⟩ := by
  obtain ⟨path, value⟩ := node
  constructor
  · intro h
    unfold children at h
    cases value with
    | object members =>
      obtain ⟨m, hm, rfl⟩ := List.mem_map.mp h
      exact ⟨m.1, m.2, .member hm (.here m.2), rfl⟩
    | array items =>
      obtain ⟨v, hv, rfl⟩ := List.mem_map.mp h
      exact ⟨wildcard, v, .element hv (.here v), by rw [escapeDots_wildcard]⟩
    | _ => cases h
  · intro hx
    obtain ⟨name, v, hv, rfl⟩ := hx
    unfold children
    cases hv with
    | member hm hw =>
      cases hw
      exact List.mem_map.mpr ⟨(name, v), hm, rfl⟩
    | element hm hw =>
      cases hw
      exact List.mem_map.mpr ⟨v, hm, by rw [escapeDots_wildcard]⟩

/-- The path of a walk along the names, from a root on. -/
def spell (names : List String) : String :=
  names.foldl (fun path name => Node.childPath path (Path.escapeDots name)) ""

/-- The names that a path of a walk is read back as. -/
def readBack (names : List String) : List String := Path.reread (names.dropWhile (· = ""))

theorem spell_append_singleton (names : List String) (name : String) :
    spell (names ++ [name]) = Node.childPath (spell names) (Path.escapeDots name) := by
  simp [spell]

theorem text_ofNames_ne_empty {names : List String} (h : names ≠ [])
    (hfirst : names.head? ≠ some "") : Path.text (Path.ofNames names) ≠ "" := by
  obtain ⟨c, cs, hcs, -⟩ := Path.toList_text_ofNames_eq_cons h hfirst
  intro he
  simp [he] at hcs

theorem head?_dropWhile_ne (names : List String) :
    (names.dropWhile (· = "")).head? ≠ some "" := by
  have hfirst := List.head?_dropWhile_not (· = "") names
  intro h
  rw [h] at hfirst
  simp at hfirst

theorem spell_eq_text (names : List String) :
    spell names = Path.text (Path.ofNames (names.dropWhile (· = ""))) := by
  induction names using List.reverseRecOn with
  | nil => rfl
  | append_singleton names name ih =>
    rw [spell_append_singleton, ih, List.dropWhile_append]
    cases hrest : names.dropWhile (· = "") with
    | nil =>
      by_cases hn : name = ""
      · subst hn
        rfl
      · simp [hn, Node.childPath, Path.text, Path.ofNames, Path.segmentText]
    | cons first rest =>
      have hfirst := head?_dropWhile_ne names
      rw [hrest] at hfirst
      have hne := text_ofNames_ne_empty (by simp) hfirst
      simp only [List.isEmpty_cons, Bool.false_eq_true, if_false]
      rw [Path.text_ofNames_append_singleton (by simp), Node.childPath, if_neg hne]

theorem dropWhile_ne_nil_of_spell {names : List String} (h : spell names ≠ "") :
    names.dropWhile (· = "") ≠ [] := by
  intro he
  apply h
  rw [spell_eq_text, he]
  rfl

/-- Reading the path of a walk back gives the names, as far as they can be told apart. -/
theorem ofText_spell {names : List String} (h : spell names ≠ "") :
    Path.ofText (spell names) = Path.ofNames (readBack names) := by
  rw [spell_eq_text]
  exact Path.ofText_text_ofNames (dropWhile_ne_nil_of_spell h) (head?_dropWhile_ne names)

/-- A wildcard is read back as one, unless a backslash before it hides a dot. -/
theorem wildcard_mem_readBack {before : List String} (h : ∀ name ∈ before, ¬EndsInBackslash name)
    (after : List String) : wildcard ∈ readBack (before ++ wildcard :: after) := by
  have hdrop : (before ++ wildcard :: after).dropWhile (· = "") =
      before.dropWhile (· = "") ++ [wildcard] ++ after := by
    have hwild : wildcard ≠ "" := by decide
    rw [List.dropWhile_append]
    cases hb : before.dropWhile (· = "") <;> simp [hwild]
  have hplain : ∀ name ∈ before.dropWhile (· = "") ++ [wildcard], ¬EndsInBackslash name := by
    intro name hname
    rcases List.mem_append.mp hname with hname | hname
    · exact h name ((List.dropWhile_sublist _).subset hname)
    · rw [List.mem_singleton.mp hname]
      decide
  rw [readBack, hdrop, Path.reread_append hplain]
  simp

theorem dropWhile_eq_self_of_head? {names : List String} (h : names.head? ≠ some "") :
    names.dropWhile (· = "") = names := by
  cases names with
  | nil => rfl
  | cons name names =>
    have hname : name ≠ "" := by simpa using h
    simp [hname]

theorem spell_eq_intercalate {names : List String} (h : names.head? ≠ some "") :
    spell names = ".".intercalate (names.map Path.escapeDots) := by
  rw [spell_eq_text, dropWhile_eq_self_of_head? h]
  simp [Path.text, Path.ofNames, Path.segmentText, Function.comp_def]

theorem spell_ne_empty {names : List String} (h : names ≠ []) (hfirst : names.head? ≠ some "") :
    spell names ≠ "" := by
  rw [spell_eq_text, dropWhile_eq_self_of_head? hfirst]
  exact text_ofNames_ne_empty h hfirst

theorem recordRoots_eq (document : Value) :
    recordRoots document = document.records.map (Node.mk "") := by
  cases document <;> rfl

/-- A walk from the records meets every value at the spelling of names that lead to it. -/
theorem Value.visits_spelled (document : Value) (deep : Bool) :
    ∀ n ∈ visits deep (recordRoots document) [], ∃ record ∈ document.records, ∃ names,
      record.Leads names n.value ∧ n.path = spell names := by
  apply forall_visits
  · intro n _ hn child hchild
    obtain ⟨record, hrecord, names, hn, hpath⟩ := hn
    obtain ⟨name, v, hv, rfl⟩ := Node.mem_children.mp hchild
    refine ⟨record, hrecord, names ++ [name], hn.append hv, ?_⟩
    rw [spell_append_singleton, hpath]
  · intro n hn
    rw [recordRoots_eq] at hn
    obtain ⟨record, hrecord, rfl⟩ := List.mem_map.mp hn
    exact ⟨record, hrecord, [], .here record, rfl⟩

theorem Value.exists_of_mem_outline {document : Value} {deep : Bool} {path : String}
    (h : path ∈ outline document deep) :
    ∃ names, document.Holds names ∧ path = spell names ∧ path ≠ "" := by
  obtain ⟨hne, n, hn, rfl⟩ := mem_pathsOf.mp h
  obtain ⟨record, hrecord, names, hv, hpath⟩ := document.visits_spelled deep n hn
  exact ⟨names, ⟨record, hrecord, n.value, hv⟩, hpath, hne⟩

/-! ### Documents whose names can be told apart -/

/-- The first name is not empty, and none ends in a backslash. -/
def Plain (names : List String) : Prop :=
  names.head? ≠ some "" ∧ ∀ name ∈ names, ¬EndsInBackslash name

/-- The first name is not empty, and none before the last ends in a backslash. Such names are what
the path of a walk along them is read back as. -/
def Readable (names : List String) : Prop :=
  names.head? ≠ some "" ∧ ∀ name ∈ names.dropLast, ¬EndsInBackslash name

instance (names : List String) : Decidable (Readable names) := by
  unfold Readable
  infer_instance

namespace Value

mutual

/-- The names of all the members in a value. -/
def memberNames : Value → List String
  | array items => itemNames items
  | object members => namesWithin members
  | _ => []

def itemNames : List Value → List String
  | [] => []
  | v :: vs => v.memberNames ++ itemNames vs

def namesWithin : Members Value → List String
  | [] => []
  | (name, v) :: ms => name :: (v.memberNames ++ namesWithin ms)

end

/-- No member name ends in a backslash, and no record has an empty one. -/
structure PlainNames (document : Value) : Prop where
  backslash : ∀ name ∈ document.memberNames, ¬EndsInBackslash name
  first : ∀ members, .object members ∈ document.records → ∀ v, ("", v) ∉ members

theorem memberNames_subset_itemNames {items : List Value} {v : Value} (h : v ∈ items) :
    v.memberNames ⊆ itemNames items := by
  induction items with
  | nil => cases h
  | cons first items ih =>
    rcases List.mem_cons.mp h with rfl | h
    · exact List.subset_append_left _ _
    · exact List.Subset.trans (ih h) (List.subset_append_right _ _)

theorem memberNames_subset_namesWithin {members : Members Value} {name : String} {v : Value}
    (h : (name, v) ∈ members) : name :: v.memberNames ⊆ namesWithin members := by
  induction members with
  | nil => cases h
  | cons first members ih =>
    obtain ⟨n, u⟩ := first
    unfold namesWithin
    rcases List.mem_cons.mp h with he | h
    · obtain ⟨rfl, rfl⟩ := Prod.mk.inj he
      exact List.cons_subset_cons _ (List.subset_append_left _ _)
    · exact List.Subset.trans (ih h)
        (List.subset_cons_of_subset _ (List.subset_append_right _ _))

theorem Leads.mem_memberNames {v w : Value} {names : List String} (h : v.Leads names w) :
    ∀ name ∈ names, name = wildcard ∨ name ∈ v.memberNames := by
  induction h with
  | here => simp
  | member hv _ ih =>
    have hsub := memberNames_subset_namesWithin hv
    intro name hname
    rcases List.mem_cons.mp hname with rfl | hname
    · exact .inr (hsub (by simp))
    · rcases ih name hname with rfl | hmem
      · exact .inl rfl
      · exact .inr (hsub (by simp [hmem]))
  | element hv _ ih =>
    intro name hname
    rcases List.mem_cons.mp hname with rfl | hname
    · exact .inl rfl
    · rcases ih name hname with rfl | hmem
      · exact .inl rfl
      · exact .inr (memberNames_subset_itemNames hv hmem)

theorem memberNames_subset_of_mem_records {document record : Value}
    (h : record ∈ document.records) : record.memberNames ⊆ document.memberNames := by
  cases document with
  | array items => exact memberNames_subset_itemNames h
  | _ =>
    obtain rfl := List.mem_singleton.mp h
    exact List.Subset.refl _

/-- No record has a member with an empty name. -/
def NamedRecords (document : Value) : Prop :=
  ∀ members, .object members ∈ document.records → ∀ v, ("", v) ∉ members

theorem NamedRecords.head?_ne {document : Value} (h : document.NamedRecords)
    {names : List String} (hn : document.Holds names) : names.head? ≠ some "" := by
  obtain ⟨record, hrecord, v, hv⟩ := hn
  intro hfirst
  cases hv with
  | here => simp at hfirst
  | member hm hw =>
    simp only [List.head?_cons, Option.some.injEq] at hfirst
    subst hfirst
    exact h _ hrecord _ hm
  | element => simp [wildcard] at hfirst

theorem PlainNames.plain_of_holds {document : Value} (h : document.PlainNames)
    {names : List String} (hn : document.Holds names) : Plain names := by
  have hnamed : document.NamedRecords := h.first
  refine ⟨hnamed.head?_ne hn, ?_⟩
  obtain ⟨record, hrecord, v, hv⟩ := hn
  intro name hname
  rcases hv.mem_memberNames name hname with rfl | hmem
  · decide
  · exact h.backslash name (memberNames_subset_of_mem_records hrecord hmem)

end Value

theorem head?_ne_of_append {names others : List String} (h : (names ++ others).head? ≠ some "") :
    names.head? ≠ some "" := by
  intro hfirst
  apply h
  rw [List.head?_append, hfirst]
  rfl

namespace Readable

variable {names others : List String}

theorem readBack_eq_self (h : Readable names) : readBack names = names := by
  rw [readBack, dropWhile_eq_self_of_head? h.1]
  exact Path.reread_eq_self h.2

theorem spell_ne_empty (h : Readable names) (hne : names ≠ []) : spell names ≠ "" :=
  JsonKeys.spell_ne_empty hne h.1

theorem ofText_spell (h : Readable names) (hne : names ≠ []) :
    Path.ofText (spell names) = Path.ofNames names := by
  rw [JsonKeys.ofText_spell (h.spell_ne_empty hne), h.readBack_eq_self]

/-- Names that are read back never share a path. -/
theorem spell_injective (h : Readable names) (ho : Readable others)
    (heq : spell names = spell others) : names = others := by
  by_cases hne : names = []
  · by_cases hother : others = []
    · rw [hne, hother]
    · exact absurd (heq ▸ hne ▸ rfl) (ho.spell_ne_empty hother)
  · have hother : others ≠ [] := by
      intro he
      exact h.spell_ne_empty hne (heq.trans (he ▸ rfl))
    have hnames := h.ofText_spell hne
    rw [heq, ho.ofText_spell hother] at hnames
    exact (Path.ofNames_injective hnames).symm

theorem plain_of_append (h : Readable (names ++ others)) (hothers : others ≠ []) : Plain names := by
  refine ⟨head?_ne_of_append h.1, ?_⟩
  intro name hname
  apply h.2 name
  rw [List.dropLast_append_of_ne_nil hothers]
  exact List.mem_append_left _ hname

end Readable

namespace Plain

variable {names others : List String}

theorem readable (h : Plain names) : Readable names :=
  ⟨h.1, fun name hname => h.2 name (List.dropLast_subset _ hname)⟩

theorem readBack_eq_self (h : Plain names) : readBack names = names := h.readable.readBack_eq_self

theorem spell_eq_intercalate (h : Plain names) :
    spell names = ".".intercalate (names.map Path.escapeDots) := JsonKeys.spell_eq_intercalate h.1

theorem spell_ne_empty (h : Plain names) (hne : names ≠ []) : spell names ≠ "" :=
  h.readable.spell_ne_empty hne

theorem spell_injective (h : Plain names) (ho : Plain others) (heq : spell names = spell others) :
    names = others := h.readable.spell_injective ho.readable heq

theorem of_append (h : Plain (names ++ others)) : Plain names :=
  ⟨head?_ne_of_append h.1, fun name hname => h.2 name (List.mem_append_left _ hname)⟩

end Plain

end JsonKeys
