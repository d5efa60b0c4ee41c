import JsonKeys.Value.Members
import Mathlib.Data.List.Induction

/-!
Putting members one after another: a name stays where it came first, and the last value put under
it counts.
-/
namespace JsonKeys.Members

variable {α : Type}

/-- The names in order. -/
def names (ms : Members α) : List String := ms.map Prod.fst

@[simp] theorem names_nil : names ([] : Members α) = [] := rfl

@[simp] theorem names_cons (m : String × α) (ms : Members α) : names (m :: ms) = m.1 :: names ms :=
  rfl

@[simp] theorem names_append (ms extra : Members α) :
    names (ms ++ extra) = names ms ++ names extra :=
  List.map_append

theorem mem_names_iff {ms : Members α} {name : String} :
    name ∈ names ms ↔ ∃ value, (name, value) ∈ ms := by
  simp [names]

/-- If no name is there twice, a member is found by its name. -/
theorem get?_eq_some_iff {ms : Members α} (h : (names ms).Nodup) {name : String} {value : α} :
    ms.get? name = some value ↔ (name, value) ∈ ms := by
  refine ⟨mem_of_get?, fun hmem => ?_⟩
  induction ms with
  | nil => cases hmem
  | cons m ms ih =>
    obtain ⟨n, v⟩ := m
    obtain ⟨hnew, hrest⟩ := List.nodup_cons.mp h
    rcases List.mem_cons.mp hmem with he | hmem
    · obtain ⟨rfl, rfl⟩ := Prod.mk.inj he
      simp [get?]
    · have hne : n ≠ name := by
        intro he
        subst he
        exact hnew (mem_names_iff.mpr ⟨value, hmem⟩)
      simp only [get?, if_neg hne, ih hrest hmem]

/-- Members split at the last one of a name. -/
theorem exists_last_of_mem_names {ms : Members α} {name : String} (h : name ∈ names ms) :
    ∃ before value after, ms = before ++ (name, value) :: after ∧ name ∉ names after := by
  induction ms with
  | nil => cases h
  | cons m ms ih =>
    by_cases hrest : name ∈ names ms
    · obtain ⟨before, value, after, rfl, hlast⟩ := ih hrest
      exact ⟨m :: before, value, after, rfl, hlast⟩
    · obtain ⟨n, v⟩ := m
      rcases List.mem_cons.mp h with rfl | hmem
      · exact ⟨[], v, ms, rfl, hrest⟩
      · exact absurd hmem hrest

/-- If no name is there twice, erasing one takes out a single member. -/
theorem exists_split_of_get? {ms : Members α} {name : String} {value : α}
    (hd : (names ms).Nodup) (h : ms.get? name = some value) :
    ∃ before after, ms = before ++ (name, value) :: after ∧ name ∉ names before ∧
      name ∉ names after ∧ ms.erase name = before ++ after := by
  obtain ⟨before, after, rfl⟩ := List.append_of_mem (mem_of_get? h)
  rw [names_append, names_cons] at hd
  have hbefore : name ∉ names before := by
    intro hmem
    exact (List.nodup_append.mp hd).2.2 name hmem name List.mem_cons_self rfl
  have hafter : name ∉ names after := (List.nodup_cons.mp (List.nodup_append.mp hd).2.1).1
  have hkeep : ∀ {others : Members α}, name ∉ names others →
      others.filter (·.1 ≠ name) = others := by
    intro others hothers
    apply List.filter_eq_self.mpr
    intro m hm
    have hne : m.1 ≠ name := by
      intro heq
      exact hothers (heq ▸ List.mem_map_of_mem hm)
    simpa using hne
  refine ⟨before, after, rfl, hbefore, hafter, ?_⟩
  rw [erase, List.filter_append, List.filter_cons, hkeep hbefore, hkeep hafter]
  simp

theorem names_put (ms : Members α) (name : String) (value : α) :
    names (ms.put name value) = if name ∈ names ms then names ms else names ms ++ [name] := by
  induction ms with
  | nil => simp [put]
  | cons m ms ih =>
    by_cases h : m.1 = name
    · simp [put, h]
    · by_cases hmem : name ∈ names ms
      · simp [put, h, ih, hmem]
      · simp [put, h, ih, hmem, Ne.symm h]

theorem nodup_put {ms : Members α} (h : (names ms).Nodup) (name : String) (value : α) :
    (names (ms.put name value)).Nodup := by
  rw [names_put]
  split
  · exact h
  · next hnew =>
    rw [List.nodup_append]
    refine ⟨h, by simp, ?_⟩
    intro other ho last hlast he
    rw [List.mem_singleton.mp hlast] at he
    exact hnew (he ▸ ho)

/-- A member put under a new name comes last. -/
theorem put_eq_append {ms : Members α} {name : String} (h : name ∉ names ms) (value : α) :
    ms.put name value = ms ++ [(name, value)] := by
  induction ms with
  | nil => rfl
  | cons m ms ih =>
    simp only [names_cons, List.mem_cons, not_or] at h
    simp [put, Ne.symm h.1, ih h.2]

theorem mem_put {ms : Members α} {name : String} {value : α} {m : String × α}
    (h : m ∈ ms.put name value) : m = (name, value) ∨ m ∈ ms := by
  induction ms with
  | nil => simpa [put] using h
  | cons first ms ih =>
    by_cases hn : first.1 = name
    · simp only [put, hn, if_true, List.mem_cons] at h
      rcases h with rfl | h
      · exact .inl rfl
      · exact .inr (List.mem_cons_of_mem _ h)
    · simp only [put, hn, if_false, List.mem_cons] at h
      rcases h with rfl | h
      · exact .inr List.mem_cons_self
      · exact (ih h).imp_right (List.mem_cons_of_mem _)

@[simp] theorem putAll_nil (ms : Members α) : ms.putAll [] = ms := rfl

@[simp] theorem putAll_cons (ms : Members α) (m : String × α) (extra : Members α) :
    ms.putAll (m :: extra) = (ms.put m.1 m.2).putAll extra := rfl

theorem putAll_append (ms es fs : Members α) : ms.putAll (es ++ fs) = (ms.putAll es).putAll fs := by
  simp only [putAll, List.foldl_append]

theorem foldl_putAll {β : Type} (entries : β → Members α) (as : List β) (ms : Members α) :
    as.foldl (fun acc a => acc.putAll (entries a)) ms = ms.putAll (as.flatMap entries) := by
  induction as generalizing ms with
  | nil => rfl
  | cons a as ih => rw [List.foldl_cons, ih, List.flatMap_cons, putAll_append]

theorem nodup_putAll {ms : Members α} (h : (names ms).Nodup) (extra : Members α) :
    (names (ms.putAll extra)).Nodup := by
  induction extra generalizing ms with
  | nil => exact h
  | cons m extra ih => exact ih (nodup_put h m.1 m.2)

theorem nodup_putAll_nil (extra : Members α) : (names (putAll [] extra)).Nodup := by
  apply nodup_putAll
  exact List.nodup_nil

theorem mem_names_putAll {ms extra : Members α} {name : String} :
    name ∈ names (ms.putAll extra) ↔ name ∈ names ms ∨ name ∈ names extra := by
  induction extra generalizing ms with
  | nil => simp
  | cons m extra ih =>
    rw [putAll_cons, ih, names_put]
    by_cases hm : m.1 ∈ names ms
    · rw [if_pos hm, names_cons, List.mem_cons]
      constructor
      · exact fun h => h.imp_right .inr
      · rintro (h | rfl | h)
        · exact .inl h
        · exact .inl hm
        · exact .inr h
    · simp [hm, or_assoc]

/-- Members that share no name are put in a row. -/
theorem putAll_eq_append {ms extra : Members α} (h : (names ms ++ names extra).Nodup) :
    ms.putAll extra = ms ++ extra := by
  induction extra generalizing ms with
  | nil => simp
  | cons m extra ih =>
    have hnew : m.1 ∉ names ms := by
      intro hmem
      simpa using (List.nodup_append.mp h).2.2 _ hmem m.1 List.mem_cons_self
    rw [putAll_cons, put_eq_append hnew, ih (by simpa using h)]
    simp

/-- Members that share no name are an object as they stand. -/
theorem putAll_nil_left {ms : Members α} (h : (names ms).Nodup) : Members.putAll [] ms = ms := by
  have hrow : (names ([] : Members α) ++ names ms).Nodup := h
  rw [putAll_eq_append hrow, List.nil_append]

theorem get?_putAll_of_notMem {ms extra : Members α} {name : String} (h : name ∉ names extra) :
    (ms.putAll extra).get? name = ms.get? name := by
  induction extra generalizing ms with
  | nil => rfl
  | cons m extra ih =>
    simp only [names_cons, List.mem_cons, not_or] at h
    rw [putAll_cons, ih h.2, get?_put_of_ne _ _ (Ne.symm h.1)]

/-- Of the members put under a name the last one counts. -/
theorem get?_putAll_of_last (ms before : Members α) {after : Members α} {name : String} (value : α)
    (h : name ∉ names after) :
    (ms.putAll (before ++ (name, value) :: after)).get? name = some value := by
  induction before generalizing ms with
  | nil => rw [List.nil_append, putAll_cons, get?_putAll_of_notMem h, get?_put_self]
  | cons m before ih => exact ih (ms.put m.1 m.2)

/-- The members with the values that the others have for their names, and then the others that share
no name with them. -/
def overlay (ms extra : Members α) : Members α :=
  ms.map (fun m => (m.1, (extra.get? m.1).getD m.2)) ++ extra.filter fun m => m.1 ∉ names ms

theorem get?_eq_none_iff {ms : Members α} {name : String} :
    ms.get? name = none ↔ name ∉ names ms := by
  induction ms with
  | nil => simp [get?]
  | cons m ms ih =>
    by_cases hm : m.1 = name
    · simp [get?, hm]
    · simp [get?, hm, ih, Ne.symm hm]

theorem get?_eq_none {ms : Members α} {name : String} (h : name ∉ names ms) : ms.get? name = none :=
  get?_eq_none_iff.mpr h

/-- A member that is there gets the new value in its place. -/
theorem put_eq_map {ms : Members α} {name : String} (h : (names ms).Nodup) (hmem : name ∈ names ms)
    (value : α) : ms.put name value = ms.map fun m => (m.1, if m.1 = name then value else m.2) := by
  induction ms with
  | nil => cases hmem
  | cons m ms ih =>
    obtain ⟨hnew, hrest⟩ := List.nodup_cons.mp h
    by_cases hm : m.1 = name
    · have hkeep : ms.map (fun o => (o.1, if o.1 = name then value else o.2)) = ms.map id := by
        apply List.map_congr_left
        intro o ho
        have hne : o.1 ≠ name := by
          intro he
          exact hnew (hm ▸ he ▸ List.mem_map_of_mem ho)
        simp [hne]
      simp [put, hm, hkeep]
    · have hmem' : name ∈ names ms := by
        rcases List.mem_cons.mp hmem with he | hmem'
        · exact absurd he.symm hm
        · exact hmem'
      simp [put, hm, ih hrest hmem']

theorem overlay_cons {ms extra : Members α} {m : String × α} (h : (names ms).Nodup)
    (hnew : m.1 ∉ names extra) : (ms.put m.1 m.2).overlay extra = ms.overlay (m :: extra) := by
  obtain ⟨name, value⟩ := m
  have hget : extra.get? name = none := get?_eq_none hnew
  by_cases hmem : name ∈ names ms
  · have hnames : names (ms.put name value) = names ms := by rw [names_put, if_pos hmem]
    have hvalues : (ms.put name value).map (fun m => (m.1, (extra.get? m.1).getD m.2)) =
        ms.map fun m => (m.1, (get? ((name, value) :: extra) m.1).getD m.2) := by
      rw [put_eq_map h hmem, List.map_map]
      apply List.map_congr_left
      intro m _
      by_cases hm : m.1 = name
      · simp [get?, hm, hget]
      · simp [get?, hm, Ne.symm hm]
    simp [overlay, hnames, hvalues, hmem]
  · have hvalues : ms.map (fun m => (m.1, (extra.get? m.1).getD m.2)) =
        ms.map fun m => (m.1, (get? ((name, value) :: extra) m.1).getD m.2) := by
      apply List.map_congr_left
      intro m hm
      have hne : name ≠ m.1 := by
        intro he
        exact hmem (he ▸ List.mem_map_of_mem hm)
      simp [get?, hne]
    have hothers : extra.filter (fun m => m.1 ∉ names ms ++ [name]) =
        extra.filter fun m => m.1 ∉ names ms := by
      apply List.filter_congr
      intro m hm
      have hne : m.1 ≠ name := by
        rintro rfl
        exact hnew (mem_names_iff.mpr ⟨m.2, hm⟩)
      simp [hne]
    rw [put_eq_append hmem]
    simp only [overlay, names_append, names_cons, names_nil, hothers, List.map_append, hvalues]
    simp [hget, hmem]

/-- Members put all at once overwrite those of their names in place, and the new ones come last. -/
theorem putAll_eq_overlay {ms extra : Members α} (h : (names ms).Nodup)
    (hextra : (names extra).Nodup) : ms.putAll extra = ms.overlay extra := by
  induction extra generalizing ms with
  | nil => simp [overlay, get?]
  | cons m extra ih =>
    obtain ⟨hnew, hrest⟩ := List.nodup_cons.mp hextra
    rw [putAll_cons, ih (nodup_put h m.1 m.2) hrest, overlay_cons h hnew]

theorem put_comm {ms : Members α} {name other : String} (hmem : name ∈ names ms)
    (hne : name ≠ other) (value second : α) :
    (ms.put other second).put name value = (ms.put name value).put other second := by
  induction ms with
  | nil => cases hmem
  | cons m ms ih =>
    by_cases hm : m.1 = name
    · have ho : m.1 ≠ other := hm ▸ hne
      simp [put, hm, hne]
    · have hmem' : name ∈ names ms := (List.mem_cons.mp hmem).resolve_left (Ne.symm hm)
      by_cases ho : m.1 = other
      · simp [put, ho, Ne.symm hne]
      · simp [put, hm, ho, ih hmem']

/-- A value for a name that is there may as well be put before members of other names. -/
theorem put_putAll_comm {ms extra : Members α} {name : String} (hmem : name ∈ names ms)
    (hnew : name ∉ names extra) (value : α) :
    (ms.putAll extra).put name value = (ms.put name value).putAll extra := by
  induction extra generalizing ms with
  | nil => rfl
  | cons m extra ih =>
    simp only [names_cons, List.mem_cons, not_or] at hnew
    have hmem' : name ∈ names (ms.put m.1 m.2) := by
      rw [names_put]
      split
      · exact hmem
      · exact List.mem_append_left _ hmem
    rw [putAll_cons, putAll_cons, ih hmem' hnew.2, put_comm hmem hnew.1]

theorem putAll_put {extra : Members α} (h : (names extra).Nodup) (ms : Members α) (name : String)
    (value : α) : ms.putAll (extra.put name value) = (ms.putAll extra).put name value := by
  induction extra generalizing ms with
  | nil => rfl
  | cons m extra ih =>
    obtain ⟨hnew, hrest⟩ := List.nodup_cons.mp h
    by_cases hm : m.1 = name
    · have hmem : name ∈ names (ms.put name m.2) := by
        rw [names_put]
        split
        · assumption
        · simp
      rw [hm] at hnew
      simp only [put, hm, if_true, putAll_cons]
      rw [put_putAll_comm hmem hnew, put_put_self]
    · simp only [put, hm, if_false, putAll_cons]
      exact ih hrest (ms.put m.1 m.2)

/-- Members may first be put into an object of their own. -/
theorem putAll_putAll_nil (ms extra : Members α) :
    ms.putAll (putAll [] extra) = ms.putAll extra := by
  induction extra using List.reverseRecOn with
  | nil => rfl
  | append_singleton extra m ih =>
    have hsnoc : ∀ others : Members α,
        others.putAll (extra ++ [m]) = (others.putAll extra).put m.1 m.2 :=
      fun others => putAll_append ..
    rw [hsnoc, hsnoc, putAll_put (nodup_putAll_nil extra), ih]

end JsonKeys.Members
