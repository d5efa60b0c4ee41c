import JsonKeys.Proofs.Outline.Positions
import JsonKeys.Proofs.Place.Reading
import JsonKeys.Proofs.Value.Distinct
import Mathlib.Data.List.Nodup

/-!
What lies under an object through objects alone: the value at a list of member names, and the
leaves, which are the values there that are no objects. Where the names of an object are distinct, a
leaf is found by its names.
-/
namespace JsonKeys.Value

def field? : Value → String → Option Value
  | object members, name => Members.get? members name
  | _, _ => none

/-- The value that the names of members lead to through objects alone. -/
def fieldAt? : Value → List String → Option Value
  | v, [] => some v
  | v, name :: names => (v.field? name).bind fun u => u.fieldAt? names

mutual

/-- The values that are no objects, with the names that lead to them through objects alone. -/
def leaves : Value → List (List String × Value)
  | object members => memberLeaves members
  | v => [([], v)]

def memberLeaves : Members Value → List (List String × Value)
  | [] => []
  | (name, v) :: ms => v.leaves.map (fun leaf => (name :: leaf.1, leaf.2)) ++ memberLeaves ms

end

mutual

/-- The names of all the members that are come to through objects alone. -/
def fieldNames : Value → List String
  | object members => namesOfFields members
  | _ => []

def namesOfFields : Members Value → List String
  | [] => []
  | (name, v) :: ms => name :: (v.fieldNames ++ namesOfFields ms)

end

theorem fieldNames_subset_namesOfFields {members : Members Value} {name : String} {v : Value}
    (h : (name, v) ∈ members) : name :: v.fieldNames ⊆ namesOfFields members := by
  induction members with
  | nil => cases h
  | cons first members ih =>
    obtain ⟨n, u⟩ := first
    unfold namesOfFields
    rcases List.mem_cons.mp h with he | h
    · obtain ⟨rfl, rfl⟩ := Prod.mk.inj he
      exact List.cons_subset_cons _ (List.subset_append_left _ _)
    · exact List.Subset.trans (ih h)
        (List.subset_cons_of_subset _ (List.subset_append_right _ _))

theorem subset_fieldNames {v u : Value} {names : List String} (h : v.fieldAt? names = some u) :
    names ⊆ v.fieldNames := by
  induction names generalizing v with
  | nil => exact List.nil_subset _
  | cons name names ih =>
    obtain ⟨w, hw, hu⟩ := Option.bind_eq_some_iff.mp h
    cases v with
    | object members =>
      have hsub := fieldNames_subset_namesOfFields (Members.mem_of_get? hw)
      exact List.Subset.trans (List.cons_subset_cons name (ih hu)) hsub
    | _ => cases hw

theorem fieldAt?_append (v : Value) (names others : List String) :
    v.fieldAt? (names ++ others) = (v.fieldAt? names).bind fun u => u.fieldAt? others := by
  induction names generalizing v with
  | nil => rfl
  | cons name names ih => simp only [List.cons_append, fieldAt?, ih, Option.bind_assoc]

theorem follow_name {v u : Value} {name : String} (h : v.field? name = some u) :
    v.follow (.name name) = .ok u := by
  cases v with
  | object members =>
    have hmember : Members.get? members name = some u := h
    simp only [follow, Segment.place, ok_bind, Place.get, hmember]
  | _ => cases h

theorem get_ofNames {v u : Value} {names : List String} (h : v.fieldAt? names = some u) :
    v.get (Path.ofNames names) = .ok u := by
  induction names generalizing v with
  | nil =>
    obtain rfl := Option.some.inj h
    rfl
  | cons name names ih =>
    obtain ⟨w, hw, hu⟩ := Option.bind_eq_some_iff.mp h
    rw [Path.ofNames, List.map_cons, get_cons, follow_name hw, ok_bind]
    exact ih hu

/-- Reading along names goes through objects alone, or else comes to an array first. -/
theorem fieldAt?_or_array_of_get {v w : Value} {names : List String}
    (h : v.get (Path.ofNames names) = .ok w) : v.fieldAt? names = some w ∨
      ∃ before items name after, names = before ++ name :: after ∧
        v.fieldAt? before = some (.array items) := by
  induction names generalizing v with
  | nil =>
    obtain rfl := Except.ok.inj h
    exact .inl rfl
  | cons name names ih =>
    rw [Path.ofNames, List.map_cons, get_cons] at h
    obtain ⟨u, hu, hw⟩ := bind_eq_ok_iff.mp h
    cases v with
    | object members =>
      have hfield : (object members).field? name = some u := by
        cases hm : Members.get? members name with
        | none => simp [follow, Segment.place, Place.get, hm] at hu
        | some child => simpa [follow, Segment.place, Place.get, hm, field?] using hu
      rcases ih hw with hat | ⟨before, items, next, after, rfl, hat⟩
      · exact .inl (by rw [fieldAt?, hfield, Option.bind_some, hat])
      · refine .inr ⟨name :: before, items, next, after, rfl, ?_⟩
        rw [fieldAt?, hfield, Option.bind_some, hat]
    | array items => exact .inr ⟨[], items, name, names, rfl, rfl⟩
    | _ => cases hu

theorem mem_memberLeaves {members : Members Value} {names : List String} {w : Value} :
    (names, w) ∈ memberLeaves members ↔
      ∃ name v others, (name, v) ∈ members ∧ names = name :: others ∧ (others, w) ∈ v.leaves := by
  induction members with
  | nil => simp [memberLeaves]
  | cons m ms ih =>
    obtain ⟨n, u⟩ := m
    simp only [memberLeaves, List.mem_append, List.mem_map, ih]
    constructor
    · rintro (⟨⟨others, x⟩, hx, he⟩ | ⟨name, v, others, hv, rfl, hw⟩)
      · obtain ⟨rfl, rfl⟩ := Prod.mk.inj he
        exact ⟨n, u, others, List.mem_cons_self, rfl, hx⟩
      · exact ⟨name, v, others, List.mem_cons_of_mem _ hv, rfl, hw⟩
    · rintro ⟨name, v, others, hv, rfl, hw⟩
      rcases List.mem_cons.mp hv with he | hv
      · obtain ⟨rfl, rfl⟩ := Prod.mk.inj he
        exact .inl ⟨(others, w), hw, rfl⟩
      · exact .inr ⟨name, v, others, hv, rfl, hw⟩

/-- An object is no leaf of its own. -/
theorem ne_nil_of_mem_leaves {members : Members Value} {names : List String} {w : Value}
    (h : (names, w) ∈ (object members).leaves) : names ≠ [] := by
  obtain ⟨name, v, others, -, rfl, -⟩ := mem_memberLeaves.mp h
  exact List.cons_ne_nil name others

/-- A leaf is what its names lead to. -/
theorem mem_leaves_iff {v w : Value} (h : v.Distinct) {names : List String} :
    (names, w) ∈ v.leaves ↔ v.fieldAt? names = some w ∧ w.kind ≠ .object := by
  induction names generalizing v with
  | nil =>
    cases v with
    | object members =>
      have hnone : ([], w) ∉ memberLeaves members := by
        rw [mem_memberLeaves]
        simp
      simp only [leaves, hnone, fieldAt?, Option.some.injEq, false_iff, not_and, not_not]
      rintro rfl
      rfl
    | _ =>
      simp only [leaves, fieldAt?, List.mem_singleton, Prod.mk.injEq, true_and, Option.some.injEq]
      constructor
      · rintro rfl
        exact ⟨rfl, by simp [kind]⟩
      · rintro ⟨rfl, -⟩
        rfl
  | cons name names ih =>
    cases v with
    | object members =>
      obtain ⟨hnodup, hmembers⟩ := distinct_object_iff.mp h
      simp only [leaves, mem_memberLeaves, fieldAt?, field?, Option.bind_eq_some_iff]
      constructor
      · rintro ⟨n, u, others, hu, he, hw⟩
        obtain ⟨rfl, rfl⟩ := List.cons.inj he
        obtain ⟨hat, hkind⟩ := (ih (hmembers _ hu)).mp hw
        exact ⟨⟨u, (Members.get?_eq_some_iff hnodup).mpr hu, hat⟩, hkind⟩
      · rintro ⟨⟨u, hu, hat⟩, hkind⟩
        have hmem := Members.mem_of_get? hu
        exact ⟨name, u, names, hmem, rfl, (ih (hmembers _ hmem)).mpr ⟨hat, hkind⟩⟩
    | _ => simp [leaves, fieldAt?, field?]

mutual

theorem nodup_leaves : ∀ {v : Value}, v.Distinct → (v.leaves.map Prod.fst).Nodup
  | object members, h => nodup_memberLeaves h.1 h.2
  | null, _ | bool _, _ | number _, _ | string _, _ | array _, _ => by simp [leaves]

theorem nodup_memberLeaves : ∀ {members : Members Value}, (Members.names members).Nodup →
    MembersDistinct members → ((memberLeaves members).map Prod.fst).Nodup
  | [], _, _ => by simp [memberLeaves]
  | (name, v) :: ms, hnodup, hd => by
    obtain ⟨hnew, hrest⟩ := List.nodup_cons.mp hnodup
    have hv : (v.leaves.map Prod.fst).Nodup := nodup_leaves hd.1
    have hms : ((memberLeaves ms).map Prod.fst).Nodup := nodup_memberLeaves hrest hd.2
    have hcons : (v.leaves.map (fun leaf => (name :: leaf.1, leaf.2))).map Prod.fst =
        (v.leaves.map Prod.fst).map (name :: ·) := by
      simp [Function.comp_def]
    rw [memberLeaves, List.map_append, hcons, List.nodup_append]
    refine ⟨hv.map fun _ _ he => (List.cons.inj he).2, hms, ?_⟩
    intro names hnames others hothers he
    subst he
    obtain ⟨first, -, rfl⟩ := List.mem_map.mp hnames
    obtain ⟨leaf, hleaf, hfirst⟩ := List.mem_map.mp hothers
    obtain ⟨n, u, rest, hu, hn, -⟩ := mem_memberLeaves.mp hleaf
    obtain ⟨rfl, -⟩ := List.cons.inj (hfirst.symm.trans hn)
    exact hnew (Members.mem_names_iff.mpr ⟨u, hu⟩)

end

/-- Names that lead to a value lead there through objects alone, or else come to an array first. -/
theorem Leads.fieldAt?_or_wildcard {v w : Value} {names : List String} (h : v.Leads names w)
    (hd : v.Distinct) : v.fieldAt? names = some w ∨ ∃ before items after,
      names = before ++ wildcard :: after ∧ v.fieldAt? before = some (.array items) := by
  induction h with
  | here => exact .inl rfl
  | @member members name names v w hm _ ih =>
    obtain ⟨hnodup, hmembers⟩ := distinct_object_iff.mp hd
    have hfield : (object members).field? name = some v := (Members.get?_eq_some_iff hnodup).mpr hm
    rcases ih (hmembers _ hm) with hat | ⟨before, items, after, rfl, hat⟩
    · exact .inl (by rw [fieldAt?, hfield, Option.bind_some, hat])
    · refine .inr ⟨name :: before, items, after, rfl, ?_⟩
      rw [fieldAt?, hfield, Option.bind_some, hat]
  | @element items names v w _ _ _ => exact .inr ⟨[], items, names, rfl, rfl⟩

end JsonKeys.Value
