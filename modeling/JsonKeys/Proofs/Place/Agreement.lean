import JsonKeys.Proofs.Place.Lens

/-! Reading, setting and erasing at one path succeed together, and where they fail they meet the
same fault. Only setting adds a member that is not there. -/
namespace JsonKeys

/-- An array reads the segment as a slice. -/
def Segment.SliceShaped (segment : Segment) : Prop := ∃ s, segment.subscript? = some (.slice s)

/-- Of two segments in a row an array reads both as slices. -/
def Path.HasAdjacentSlices (path : Path) : Prop :=
  ∃ before first second after, path = before ++ first :: second :: after ∧
    first.SliceShaped ∧ second.SliceShaped

/-- The last segment names a member absent from the object that the rest of the path selects. -/
def Path.AddsMember (path : Path) (v : Value) : Prop :=
  ∃ before name members, path = before ++ [.name name] ∧ v.get before = .ok (.object members) ∧
    Members.get? members name = none

/-- The value is an array, with as many items as the slice selects if that has gaps. -/
def Slice.Takes (s : Slice) (len : Nat) (value : Value) : Prop :=
  ∃ values, value = .array values ∧
    (s.stride ≠ 1 → ∀ ks, s.positions? len = some ks → values.length = ks.length)

/-- If the last step takes a slice, the value can stand in for what it selects. -/
def Path.Takes (path : Path) (v value : Value) : Prop :=
  ∀ before last u items s, path = before ++ [last] → v.get before = .ok u →
    last.place u = .ok (.slice items s) → s.Takes items.length value

theorem Segment.Slices.sliceShaped {segment : Segment} {v : Value} (h : segment.Slices v) :
    segment.SliceShaped := by
  obtain ⟨items, s, h⟩ := h
  obtain rfl := Segment.place_container h
  exact ⟨s, (Segment.place_array_eq_slice_iff.mp h).1⟩

theorem Path.SlicesSlice.hasAdjacentSlices {path : Path} {v : Value} (h : path.SlicesSlice v) :
    path.HasAdjacentSlices := by
  obtain ⟨before, first, second, after, u, w, hp, -, hfirst, -, hsecond⟩ := h
  exact ⟨before, first, second, after, hp, hfirst.sliceShaped, hsecond.sliceShaped⟩

namespace Place

theorem erase_eq_error_iff (place : Place) (fault : Fault) :
    place.erase = .error fault ↔ place.get = .error fault := by
  cases place with
  | member members name => cases hm : members.get? name <;> simp [erase, get, hm]
  | element items k => simp [erase, get]
  | slice items s =>
    cases hs : s.positions items.length <;> simp [erase, get, hs, pure, Except.pure]

/-- A slice that can take the value refuses it only if it addresses nothing. -/
theorem replaceSlice_eq_error_iff {items : List Value} {s : Slice} {value : Value}
    (h : s.Takes items.length value) (segment : Segment) (fault : Fault) :
    replaceSlice items s value segment = .error fault ↔
      s.positions items.length = .error fault := by
  obtain ⟨values, rfl, hlen⟩ := h
  cases hspan : s.span? items.length with
  | some span =>
    have h1 := Slice.stride_of_span? hspan
    have h0 : s.stride ≠ 0 := by omega
    simp [replaceSlice, hspan, Slice.positions, Slice.positions?, h0]
  | none =>
    have h1 := Slice.span?_eq_none_iff.mp hspan
    cases hs : s.positions items.length with
    | error e => simp [replaceSlice, hspan, hs]
    | ok ks =>
      have hk := (hlen h1 ks (Slice.positions_eq_ok_iff.mp hs)).symm
      simp [replaceSlice, hspan, hs, hk]

/-- The place is that of a member which is not there. -/
def Vacant (place : Place) : Prop :=
  ∃ members name, place = member members name ∧ Members.get? members name = none

theorem set_eq_error_iff {place : Place} {value : Value}
    (h : ∀ items s, place = slice items s → s.Takes items.length value) (segment : Segment)
    (fault : Fault) :
    place.set value segment = .error fault ↔ place.get = .error fault ∧ ¬place.Vacant := by
  cases place with
  | member members name => cases hm : members.get? name <;> simp [set, get, Vacant, hm]
  | element items k => simp [set, get]
  | slice items s =>
    have hv : ¬(slice items s).Vacant := by
      intro hx
      obtain ⟨members, name, hmember, -⟩ := hx
      cases hmember
    rw [set, replaceSlice_eq_error_iff (h items s rfl), get]
    cases hs : s.positions items.length <;> simp [hv, pure, Except.pure]

end Place

theorem Locates.addsMember {path : Path} {v : Value} {t : Target} (h : Locates path v t)
    (ht : t.place.Vacant) : path.AddsMember v := by
  obtain ⟨members, name, hplace, hm⟩ := ht
  obtain ⟨before, u, hp, hu, hlast | ⟨items, k, hk⟩⟩ := h.last_step
  · rw [hplace] at hlast
    obtain ⟨hsegment, rfl⟩ := place_eq_member hlast
    rw [hsegment] at hp
    exact ⟨before, name, members, hp, hu, hm⟩
  · rw [hplace] at hk
    cases hk

theorem Path.AddsMember.vacant {path : Path} {v : Value} (h : path.AddsMember v)
    (hss : ¬path.SlicesSlice v) : ∃ t, locate path v = .ok t ∧ t.place.Vacant := by
  obtain ⟨before, name, members, rfl, hu, hm⟩ := h
  have hlast : (Segment.name name).place (.object members) = .ok (.member members name) := rfl
  obtain ⟨position, ht⟩ := locates_member hlast hu hss
  exact ⟨_, ht.locate_eq, members, name, rfl, hm⟩

theorem Locates.takes {path : Path} {v value : Value} {t : Target} (h : Locates path v t)
    (hv : path.Takes v value) :
    ∀ items s, t.place = .slice items s → s.Takes items.length value := by
  intro items s ht
  obtain ⟨before, u, hp, hu, hlast | ⟨others, k, hk⟩⟩ := h.last_step
  · rw [ht] at hlast
    exact hv before t.segment u items s hp hu hlast
  · rw [ht] at hk
    cases hk

namespace Value

theorem erase_eq_locate (v : Value) (path : Path) :
    v.erase path true = (do
      let t ← locate path v
      return v.putAt t.position (← t.place.erase)) := by
  rw [erase, tolerate_true, editAt_eq_locate]

theorem erase_eq_error_iff {v : Value} {path : Path} (hne : path ≠ []) (hss : ¬path.SlicesSlice v)
    (fault : Fault) : v.erase path true = .error fault ↔ v.get path = .error fault := by
  rw [erase_eq_locate, get_eq_locate hne hss]
  cases locate path v with
  | error e => simp
  | ok t =>
    rw [ok_bind, ok_bind, ← Place.erase_eq_error_iff]
    cases t.place.erase <;> simp [pure, Except.pure]

theorem set_eq_error_iff {v value : Value} {path : Path} (hne : path ≠ [])
    (hss : ¬path.SlicesSlice v) (hv : path.Takes v value) (fault : Fault) :
    v.set path value true = .error fault ↔ v.get path = .error fault ∧ ¬path.AddsMember v := by
  rw [set_eq_locate, get_eq_locate hne hss]
  cases ht : locate path v with
  | error e =>
    have hadds : ¬path.AddsMember v := by
      intro h
      obtain ⟨t, hl, -⟩ := h.vacant hss
      rw [ht] at hl
      cases hl
    simp [hadds]
  | ok t =>
    have hl := locates_of_locate_eq ht
    have hadds : path.AddsMember v ↔ t.place.Vacant := by
      constructor
      · intro h
        obtain ⟨u, hu, hvacant⟩ := h.vacant hss
        rw [ht] at hu
        cases hu
        exact hvacant
      · exact hl.addsMember
    rw [ok_bind, ok_bind, hadds, ← Place.set_eq_error_iff (hl.takes hv) t.segment]
    cases t.place.set value t.segment <;> simp [pure, Except.pure]

/-- Reading, setting and erasing agree on where they succeed and on what they fail with. -/
theorem get_set_erase_agree (v : Value) (path : Path) (hne : path ≠ [])
    (hadj : ¬path.HasAdjacentSlices) :
    ((∃ w, v.erase path true = .ok w) ↔ ∃ w, v.get path = .ok w) ∧
    (∀ fault, v.erase path true = .error fault ↔ v.get path = .error fault) ∧
    ∀ value, path.Takes v value →
      ((∃ w, v.set path value true = .ok w) ↔ (∃ w, v.get path = .ok w) ∨ path.AddsMember v) ∧
      ∀ fault, v.set path value true = .error fault ↔
        v.get path = .error fault ∧ ¬path.AddsMember v := by
  have hss : ¬path.SlicesSlice v := fun h => hadj h.hasAdjacentSlices
  refine ⟨?_, erase_eq_error_iff hne hss, fun value hv => ⟨?_, set_eq_error_iff hne hss hv⟩⟩
  · simp only [exists_ok_iff, ne_eq, erase_eq_error_iff hne hss]
  · simp only [exists_ok_iff, ne_eq, set_eq_error_iff hne hss hv]
    by_cases h : path.AddsMember v <;> simp [h]

theorem get_set_erase_agree_absent :
    let path : Path := [.slice ⟨some 1, none, none⟩, .index 1, .name "m"]
    let v := array [null, null, object [("n", null)]]
    path ≠ [] ∧ ¬path.HasAdjacentSlices ∧ path.Takes v (bool true) ∧ path.AddsMember v ∧
      (∃ w, v.set path (bool true) true = .ok w) ∧
      v.erase path true = .error (.missingMember "m") := by
  intro path v
  have hadj : ¬path.HasAdjacentSlices := by
    intro hx
    obtain ⟨before, first, second, after, hp, ⟨s, hs⟩, t, ht⟩ := hx
    rcases before with _ | ⟨a, _ | ⟨b, before⟩⟩
    · obtain ⟨-, hp⟩ := List.cons.inj hp
      obtain ⟨rfl, -⟩ := List.cons.inj hp
      cases ht
    · obtain ⟨-, hp⟩ := List.cons.inj hp
      obtain ⟨rfl, -⟩ := List.cons.inj hp
      cases hs
    · have hlen := congrArg List.length hp
      simp only [path, List.cons_append, List.length_cons, List.length_append,
        List.length_nil] at hlen
      omega
  have hadds : path.AddsMember v :=
    ⟨[.slice ⟨some 1, none, none⟩, .index 1], "m", [("n", null)], rfl, rfl, rfl⟩
  have htakes : path.Takes v (bool true) := by
    intro before last u items s hp hu hs
    have hsplit : [.slice ⟨some 1, none, none⟩, .index 1] ++ [.name "m"] = before ++ [last] := hp
    obtain ⟨rfl, hlast⟩ := List.append_inj' hsplit rfl
    cases hlast
    cases hu
    cases hs
  have hne : path ≠ [] := List.cons_ne_nil _ _
  obtain ⟨-, herase, hset⟩ := get_set_erase_agree v path hne hadj
  exact ⟨hne, hadj, htakes, hadds, (hset _ htakes).1.mpr (.inr hadds), (herase _).mpr rfl⟩

end Value

end JsonKeys
