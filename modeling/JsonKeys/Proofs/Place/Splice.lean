import JsonKeys.Proofs.Path.Words
import JsonKeys.Proofs.Place.Lens
import JsonKeys.Proofs.Value.Frame

/-!
Setting at a slice. A slice without gaps gives way to any number of values, as one stretch; of any
other slice every position takes a value of its own, in the order in which the slice is read.
-/
namespace JsonKeys

section SetMany

variable {n : Nat}

theorem length_foldl_set (pairs : List (Fin n × Value)) (acc : List Value) :
    (pairs.foldl (fun acc kv => acc.set kv.1 kv.2) acc).length = acc.length := by
  induction pairs generalizing acc with
  | nil => rfl
  | cons pair pairs ih => rw [List.foldl_cons, ih, List.length_set]

theorem getElem?_foldl_set_of_notMem {ks : List (Fin n)} {i : Fin n} (h : i ∉ ks)
    (values acc : List Value) :
    ((ks.zip values).foldl (fun acc kv => acc.set kv.1 kv.2) acc)[i]? = acc[i]? := by
  induction ks generalizing values acc with
  | nil => rfl
  | cons k ks ih =>
    cases values with
    | nil => rfl
    | cons value values =>
      simp only [List.mem_cons, not_or] at h
      have hne : k.val ≠ i.val := fun heq => h.1 (Fin.ext heq.symm)
      rw [List.zip_cons_cons, List.foldl_cons, ih h.2]
      exact List.getElem?_set_ne hne

/-- Every position gets its own value, for no later one is written over it. -/
theorem getElem?_foldl_set {ks : List (Fin n)} (hks : ks.Nodup) {values acc : List Value}
    (hacc : acc.length = n) (hlen : values.length = ks.length) (j : Nat) (hj : j < ks.length) :
    ((ks.zip values).foldl (fun acc kv => acc.set kv.1 kv.2) acc)[ks[j]]? = values[j]? := by
  induction ks generalizing values acc j with
  | nil => cases hj
  | cons k ks ih =>
    cases values with
    | nil => cases hlen
    | cons value values =>
      obtain ⟨hnew, hrest⟩ := List.nodup_cons.mp hks
      rw [List.zip_cons_cons, List.foldl_cons]
      cases j with
      | zero =>
        have hk : k.val < acc.length := by omega
        rw [List.getElem_cons_zero, getElem?_foldl_set_of_notMem hnew]
        exact List.getElem?_set_self hk
      | succ j =>
        have hset : (acc.set k value).length = n := by rw [List.length_set, hacc]
        exact ih hrest hset (Nat.succ.inj hlen) j (Nat.lt_of_succ_lt_succ hj)

end SetMany

namespace Slice

/-- The value cannot stand in for what the slice selects: it is no array, or the slice has step
zero, or it has gaps and another number of positions than the array has items. -/
def Refuses (s : Slice) (len : Nat) (value : Value) : Prop :=
  (∀ values, value ≠ .array values) ∨ s.step = some 0 ∨
    s.stride ≠ 1 ∧ ∃ values ks, value = .array values ∧ s.positions? len = some ks ∧
      values.length ≠ ks.length

/-- The new items are the old ones with the values in the place of those that the slice selects. A
slice without gaps selects the stretch from `a` up to `b`, which in words are the ends found for
it. -/
structure Replaces (s : Slice) (items values new : List Value) (ks : List (Fin items.length)) :
    Prop where
  stretch : s.stride = 1 → ∃ a b, a ≤ b ∧ b ≤ items.length ∧ (a : Int) = s.startBound items.length ∧
    (b : Int) = max (s.stopBound items.length) a ∧ ks.map Fin.val = List.range' a (b - a) ∧
    new = items.take a ++ values ++ items.drop b ∧
    (items.length < 0x8000000000000000 → ∃ first last,
      s.wordSpan items.length = .ok (some (first, last)) ∧ first.toNat = a ∧ last.toNat = b)
  selected : s.stride ≠ 1 → ∀ (j : Nat) (hj : j < ks.length), new[ks[j]]? = values[j]?
  others : s.stride ≠ 1 → ∀ i : Fin items.length, i ∉ ks → new[i]? = items[i]?
  length_eq : s.stride ≠ 1 → new.length = items.length

theorem replaceSlice_of_refuses {s : Slice} {items : List Value} {value : Value}
    (h : s.Refuses items.length value) (segment : Segment) :
    ∃ text found, replaceSlice items s value segment = .error (.kindMismatch text found) := by
  cases value with
  | array values =>
    rcases h with hvalue | hzero | ⟨h1, others, ks, hvalue, hks, hlen⟩
    · exact absurd rfl (hvalue values)
    · have h0 : s.stride = 0 := stride_eq_zero_iff.mpr hzero
      have hspan : s.span? items.length = none := span?_eq_none_iff.mpr (by omega)
      have hpositions : s.positions items.length = .error (.kindMismatch s.text .array) := by
        rw [positions, positions?_eq_none_iff.mpr h0]
      exact ⟨s.text, .array, by simp only [replaceSlice, hspan, hpositions, error_bind]⟩
    · cases hvalue
      have hspan : s.span? items.length = none := span?_eq_none_iff.mpr h1
      have hpositions := positions_eq_ok_iff.mpr hks
      exact ⟨segment.text, .array, by
        simp only [replaceSlice, hspan, hpositions, ok_bind, if_neg (Ne.symm hlen)]⟩
  | _ => exact ⟨_, _, rfl⟩

theorem replaces_stretch {s : Slice} {items : List Value} {ks : List (Fin items.length)} {a b : Nat}
    (hks : s.positions? items.length = some ks) (hspan : s.span? items.length = some (a, b))
    (values : List Value) :
    s.Replaces items values (items.take a ++ values ++ items.drop b) ks := by
  have h1 := stride_of_span? hspan
  obtain ⟨hab, hb, hstart, hstop, hstretch⟩ := stretch_of_span? hks hspan
  refine ⟨fun _ => ?_, fun hne => absurd h1 hne, fun hne => absurd h1 hne, fun hne => absurd h1 hne⟩
  refine ⟨a, b, hab, hb, hstart, hstop, hstretch, rfl, fun hlen => ?_⟩
  obtain ⟨span, hword, hmap⟩ := s.exists_wordSpan hlen
  rw [hspan] at hmap
  obtain ⟨ends, rfl, hends⟩ := Option.map_eq_some_iff.mp hmap
  obtain ⟨hfirst, hlast⟩ := Prod.mk.inj hends
  exact ⟨ends.1, ends.2, hword, hfirst, hlast⟩

theorem replaces_setMany {s : Slice} {items values : List Value} {ks : List (Fin items.length)}
    (h1 : s.stride ≠ 1) (hks : s.positions? items.length = some ks)
    (hlen : values.length = ks.length) :
    s.Replaces items values (setMany items ks values) ks := by
  constructor
  · exact fun h => absurd h h1
  · exact fun _ j hj => getElem?_foldl_set (nodup_of_positions? hks) rfl hlen j hj
  · exact fun _ i hi => getElem?_foldl_set_of_notMem hi values items
  · exact fun _ => length_foldl_set _ items

theorem exists_replaceSlice {s : Slice} {items : List Value} {value : Value}
    (h : ¬s.Refuses items.length value) (segment : Segment) :
    ∃ values ks new, value = .array values ∧ s.positions? items.length = some ks ∧
      replaceSlice items s value segment = .ok (.array new) ∧ s.Replaces items values new ks := by
  obtain ⟨hvalue, hzero, hcount⟩ := not_or.mp h |>.imp id not_or.mp
  cases value with
  | array values =>
    have h0 : s.stride ≠ 0 := fun h0 => hzero (stride_eq_zero_iff.mp h0)
    cases hks : s.positions? items.length with
    | none => exact absurd (positions?_eq_none_iff.mp hks) h0
    | some ks =>
      cases hspan : s.span? items.length with
      | some span =>
        obtain ⟨a, b⟩ := span
        refine ⟨values, ks, _, rfl, rfl, ?_, replaces_stretch hks hspan values⟩
        simp only [replaceSlice, hspan]
      | none =>
        have h1 := span?_eq_none_iff.mp hspan
        have hlen : values.length = ks.length := by
          by_cases hlen : values.length = ks.length
          · exact hlen
          · exact absurd ⟨h1, values, ks, rfl, hks, hlen⟩ hcount
        refine ⟨values, ks, _, rfl, rfl, ?_, replaces_setMany h1 hks hlen⟩
        simp only [replaceSlice, hspan, positions_eq_ok_iff.mpr hks, ok_bind, if_pos hlen.symm]
  | _ => exact absurd (fun values hv => by cases hv) hvalue

/-- As many values as there were items are where the slice selects, and read back from there. -/
theorem Replaces.pick_eq {s : Slice} {items values new : List Value} {ks : List (Fin items.length)}
    (h : s.Replaces items values new ks) (hlen : values.length = ks.length) :
    ∃ hnew : items.length = new.length, pick new (ks.map (Fin.cast hnew)) = values := by
  have hplaces : new.length = items.length ∧ ∀ (j : Nat) (hj : j < ks.length),
      new[ks[j]]? = values[j]? := by
    by_cases h1 : s.stride = 1
    · obtain ⟨a, b, hab, hb, -, -, hstretch, rfl, -⟩ := h.stretch h1
      have hcount := length_of_stretch hstretch
      have htake : (items.take a).length = a := List.length_take_of_le (by omega)
      constructor
      · rw [List.length_append, List.length_append, List.length_drop, htake]
        omega
      · intro j hj
        show (items.take a ++ values ++ items.drop b)[(ks[j] : Nat)]? = _
        rw [getElem_of_stretch hstretch hj, List.append_assoc,
          List.getElem?_append_right (by omega), htake, Nat.add_sub_cancel_left,
          List.getElem?_append_left (by omega)]
    · exact ⟨h.length_eq h1, h.selected h1⟩
  obtain ⟨hnew, hvalues⟩ := hplaces
  refine ⟨hnew.symm, ?_⟩
  apply List.ext_getElem
  · simp [pick, hlen]
  · intro j hj hj'
    have hvalue := hvalues j (by omega)
    rw [List.getElem?_eq_getElem hj'] at hvalue
    simp only [pick, List.map_map, List.getElem_map]
    exact (List.getElem?_eq_some_iff.mp hvalue).2

end Slice

namespace Value

/-- A slice at the end of a path refuses a value, or takes it and leaves the rest of the document
alone. As many values as it selects are read back as they were set. -/
theorem set_at_slice {v : Value} {path : Path} {position : Position} {segment : Segment}
    {items : List Value} {s : Slice} (h : Locates path v ⟨position, segment, .slice items s⟩)
    (value : Value) :
    (s.Refuses items.length value → ∃ text found,
      v.set path value true = .error (.kindMismatch text found)) ∧
    (¬s.Refuses items.length value → ∃ values ks new w, value = .array values ∧
      s.positions? items.length = some ks ∧ v.set path value true = .ok w ∧
      v.at? position = some (.array items) ∧ w.at? position = some (.array new) ∧
      v.DiffersAt position w ∧ s.Replaces items values new ks ∧
      (values.length = ks.length → new.length = items.length ∧ w.get path = .ok value)) := by
  have hset : v.set path value true =
      (do return v.putAt position (← replaceSlice items s value segment)) := by
    rw [set_eq_locate, h.locate_eq, ok_bind]
    rfl
  have hat : v.at? position = some (.array items) := h.at?_eq
  constructor
  · intro hrefuses
    obtain ⟨text, found, hreplace⟩ := Slice.replaceSlice_of_refuses hrefuses segment
    exact ⟨text, found, by rw [hset, hreplace, error_bind]⟩
  · intro htakes
    obtain ⟨values, ks, new, hvalue, hks, hreplace, hreplaces⟩ :=
      Slice.exists_replaceSlice htakes segment
    refine ⟨values, ks, new, v.putAt position (.array new), hvalue, hks, ?_, hat,
      at?_putAt_self hat _, differsAt_putAt hat _, hreplaces, fun hlen => ?_⟩
    · rw [hset, hreplace]
      rfl
    · obtain ⟨hnew, hpick⟩ := hreplaces.pick_eq hlen
      have hread : (v.putAt position (.array new)).get path = (Place.slice new s).get :=
        (h.refit (.slice items new s)).get_eq
      have hpositions := positions_of_length hnew (Slice.positions_eq_ok_iff.mpr hks)
      refine ⟨hnew.symm, ?_⟩
      rw [hread, Place.get, hpositions, hvalue, ok_bind, hpick]
      rfl

/-- The values go backwards to the last record and the first, and one value alone is refused. -/
theorem set_at_slice_backwards :
    let s : Slice := ⟨none, none, some (-2)⟩
    let path : Path := [.name "rows", .slice s]
    let rows := [object [("n", null)], object [("n", bool true)], object [("n", null)]]
    let value := array [object [("n", string "x")], object [("n", string "y")]]
    let v := threeRows null (bool true) null
    let w := threeRows (string "y") (bool true) (string "x")
    Locates path v ⟨[.member "rows"], .slice s, .slice rows s⟩ ∧
      (s.Refuses 3 (array [null]) ∧
        ∃ text found, v.set path (array [null]) true = .error (.kindMismatch text found)) ∧
      ¬s.Refuses 3 value ∧ v.set path value true = .ok w ∧ v.DiffersAt [.member "rows"] w ∧
      w.get path = .ok value := by
  intro s path rows value v w
  have hl : Locates path v ⟨[.member "rows"], .slice s, .slice rows s⟩ := locates_of_locate_eq rfl
  have hpositions : s.positions? 3 = some [2, 0] := by decide +kernel
  have hrefuses : s.Refuses 3 (array [null]) :=
    .inr (.inr ⟨by decide, [null], [2, 0], rfl, hpositions, by decide⟩)
  have htakes : ¬s.Refuses 3 value := by
    intro h
    rcases h with hvalue | hzero | ⟨-, values, ks, hvalue, hks, hlen⟩
    · exact hvalue _ rfl
    · cases hzero
    · obtain rfl := Value.array.inj hvalue
      obtain rfl := Option.some.inj (hpositions.symm.trans hks)
      exact hlen rfl
  have hset : v.set path value true = .ok w := rfl
  obtain ⟨values, ks, new, u, hvalue, hks, hu, -, -, hdiffers, -, hread⟩ :=
    (set_at_slice hl value).2 htakes
  obtain rfl := Except.ok.inj (hset.symm.trans hu)
  obtain rfl := Option.some.inj (hpositions.symm.trans hks)
  obtain rfl := Value.array.inj hvalue
  exact ⟨hl, ⟨hrefuses, (set_at_slice hl _).1 hrefuses⟩, htakes, hset, hdiffers, (hread rfl).2⟩

end Value

end JsonKeys
