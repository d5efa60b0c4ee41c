import JsonKeys.Proofs.Place.Reading
import JsonKeys.Proofs.Place.Selection

/-! Reading and setting at one path form a lens: what was set is read back, setting what was read
changes nothing, and of two settings the second counts. -/
namespace JsonKeys

/-- The last step of the path takes a slice. -/
def Path.EndsInSlice (path : Path) (v : Value) : Prop :=
  ∃ before last u, path = before ++ [last] ∧ v.get before = .ok u ∧ last.Slices u

theorem endsInSlice_append_singleton {before : Path} {last : Segment} {v : Value} :
    Path.EndsInSlice (before ++ [last]) v ↔ ∃ u, v.get before = .ok u ∧ last.Slices u := by
  constructor
  · intro hx
    obtain ⟨others, final, u, hp, hu, hs⟩ := hx
    obtain ⟨rfl, hlast⟩ := List.append_inj' hp rfl
    cases hlast
    exact ⟨u, hu, hs⟩
  · intro hx
    obtain ⟨u, hu, hs⟩ := hx
    exact ⟨before, last, u, rfl, hu, hs⟩

theorem Locates.endsInSlice {path : Path} {v : Value} {t : Target} (h : Locates path v t)
    {items : List Value} {s : Slice} (ht : t.place = .slice items s) : path.EndsInSlice v := by
  obtain ⟨before, u, hp, hu, hlast | ⟨others, k, hk⟩⟩ := h.last_step
  · exact ⟨before, t.segment, u, hp, hu, items, s, by rw [hlast, ht]⟩
  · rw [ht] at hk
    cases hk

namespace Place

theorem element_congr {items others : List Value} (h : items = others) {j : Fin items.length}
    {k : Fin others.length} (hk : j.val = k.val) : element items j = element others k := by
  subst h
  rw [Fin.ext hk]

/-- The same place with another value in it. -/
def fill (value : Value) : Place → Place
  | member members name => member (members.put name value) name
  | element items k => element (items.set k value) (k.cast List.length_set.symm)
  | slice items s => slice items s

theorem set_eq_fill {place : Place} (hp : ∀ items s, place ≠ slice items s) (value : Value)
    (segment : Segment) : place.set value segment = .ok (place.fill value).container := by
  cases place with
  | member members name => rfl
  | element items k => rfl
  | slice items s => exact absurd rfl (hp items s)

theorem get_fill {place : Place} (hp : ∀ items s, place ≠ slice items s) (value : Value) :
    (place.fill value).get = .ok value := by
  cases place with
  | member members name => simp [fill, get]
  | element items k => simp [fill, get]
  | slice items s => exact absurd rfl (hp items s)

theorem fill_fill (place : Place) (first second : Value) :
    (place.fill first).fill second = place.fill second := by
  cases place with
  | member members name => simp [fill]
  | element items k => exact element_congr (List.set_set ..) rfl
  | slice items s => rfl

theorem fill_ne_slice {place : Place} (hp : ∀ items s, place ≠ slice items s) (value : Value) :
    ∀ items s, place.fill value ≠ slice items s := by
  intro items s h
  cases place with
  | member members name => cases h
  | element items k => cases h
  | slice items s => exact hp items s rfl

/-- The same place in containers of one shape: objects, arrays of one length, or any arrays for a
slice. -/
inductive Alike : Place → Place → Prop
  | member (members others : Members Value) (name : String) :
      Alike (member members name) (member others name)
  | element {items others : List Value} (h : items.length = others.length) (k : Fin items.length) :
      Alike (element items k) (element others (k.cast h))
  | slice (items others : List Value) (s : Slice) : Alike (slice items s) (slice others s)

theorem alike_fill (place : Place) (value : Value) : place.Alike (place.fill value) := by
  cases place with
  | member members name => exact .member ..
  | element items k => exact .element ..
  | slice items s => exact .slice ..

/-- What was read from a place can be set there, and the container stays as it was. -/
theorem set_of_get {place : Place} {value : Value} (h : place.get = .ok value) (segment : Segment) :
    place.set value segment = .ok place.container := by
  cases place with
  | member members name =>
    cases hm : members.get? name with
    | none => simp [get, hm] at h
    | some found =>
      simp only [get, hm, Except.ok.injEq] at h
      subst h
      simp only [set, Members.put_of_get? hm, container]
  | element items k =>
    cases h
    simp [set, container]
  | slice items s =>
    obtain ⟨ks, hs, hks⟩ := bind_eq_ok_iff.mp h
    cases hks
    have hk := Slice.positions_eq_ok_iff.mp hs
    cases hspan : s.span? items.length with
    | some span =>
      obtain ⟨start, stop⟩ := span
      simp only [set, replaceSlice, hspan, take_append_pick_append_drop hk hspan, container]
    | none =>
      have hlen : ks.length = (pick items ks).length := by simp [pick]
      simp only [set, replaceSlice, hspan, hs, ok_bind, if_pos hlen, setMany_pick, container]

end Place

theorem positions_of_length {s : Slice} {m n : Nat} (h : m = n) {ks : List (Fin m)}
    (hs : s.positions m = .ok ks) : s.positions n = .ok (ks.map (Fin.cast h)) := by
  subst h
  simpa using hs

/-- Which element a slice and the index behind it stand for depends on the length of the array
only. -/
theorem elementOf_cast {s : Slice} {next : Segment} {items others : List Value}
    (h : items.length = others.length) :
    elementOf s next others = (elementOf s next items).map (Fin.cast h) := by
  unfold elementOf
  generalize items.length = m at *
  generalize others.length = n at *
  subst h
  cases s.positions m with
  | error fault => rfl
  | ok ks =>
    cases next.subscript? with
    | none => rfl
    | some subscript =>
      cases subscript with
      | slice t => rfl
      | index i =>
        simp only [ok_bind]
        cases indexPosition i ks.length <;> rfl

theorem elementOf_of_length {s : Slice} {next : Segment} {items others : List Value}
    (hlen : items.length = others.length) {k : Fin items.length}
    (hk : elementOf s next items = .ok k) : elementOf s next others = .ok (k.cast hlen) := by
  rw [elementOf_cast hlen, hk]
  rfl

theorem place_slice_of_length {segment : Segment} {items xs : List Value} {s : Slice}
    (h : segment.place (.array items) = .ok (.slice xs s)) (others : List Value) :
    segment.place (.array others) = .ok (.slice others s) := by
  rw [Segment.place_array_eq_slice_iff] at h ⊢
  exact ⟨h.1, rfl⟩

theorem place_element_of_length {segment : Segment} {items others : List Value}
    (hlen : items.length = others.length) {k : Fin items.length}
    (h : segment.place (.array items) = .ok (.element items k)) :
    segment.place (.array others) = .ok (.element others (k.cast hlen)) := by
  rw [Segment.place_array_eq_element_iff] at h ⊢
  obtain ⟨i, hi, hk⟩ := h
  refine ⟨i, hi, ?_⟩
  rw [indexPosition_cast i hlen, hk]
  rfl

theorem place_eq_member {segment : Segment} {v : Value} {members : Members Value} {name : String}
    (h : segment.place v = .ok (.member members name)) :
    segment = .name name ∧ v = .object members := by
  refine ⟨?_, (Segment.place_container h).symm⟩
  obtain rfl := Segment.place_container h
  cases segment <;> cases h
  rfl

theorem putAt_below {v child : Value} {c : Coordinate} (hc : v.part? c = some child) (t : Target)
    (new : Value) :
    v.putAt (t.below c).position new = v.putPart c (child.putAt t.position new) := by
  simp only [Target.below, Value.putAt, hc]

theorem putAt_element_below {items : List Value} (k : Fin items.length) (t : Target) (new : Value) :
    (Value.array items).putAt (t.below (.element k)).position new =
      .array (items.set k ((items.get k).putAt t.position new)) :=
  putAt_below (by simp [Value.part?]) t new

theorem Locates.element_set {segment next : Segment} {rest : Path} {items : List Value}
    {k : Fin items.length} {new : Value} {t : Target}
    (h : segment.place (.array items) = .ok (.element items k))
    (ht : Locates (next :: rest) new t) :
    Locates (segment :: next :: rest) (.array (items.set k new)) (t.below (.element k)) := by
  have hlen : items.length = (items.set k new).length := List.length_set.symm
  have hnew : (items.set k new).get (k.cast hlen) = new := List.getElem_set_self _
  rw [← hnew] at ht
  exact .element (k := k.cast hlen) (place_element_of_length hlen h) ht

theorem Locates.through_set {segment next third : Segment} {rest : Path} {items : List Value}
    {s : Slice} {k : Fin items.length} {new : Value} {t : Target}
    (h : segment.place (.array items) = .ok (.slice items s))
    (hk : elementOf s next items = .ok k) (ht : Locates (third :: rest) new t) :
    Locates (segment :: next :: third :: rest) (.array (items.set k new))
      (t.below (.element k)) := by
  have hlen : items.length = (items.set k new).length := List.length_set.symm
  have hnew : (items.set k new).get (k.cast hlen) = new := List.getElem_set_self _
  rw [← hnew] at ht
  exact .through (k := k.cast hlen) (place_slice_of_length h _) (elementOf_of_length hlen hk) ht

/-- Where a container of the same shape is put at the end of a path, the path ends at the same place
in it. -/
theorem Locates.refit {path : Path} {v : Value} {t : Target} (h : Locates path v t) {place : Place}
    (hp : t.place.Alike place) :
    Locates path (v.putAt t.position place.container) { t with place := place } := by
  induction h with
  | @last segment v found h =>
    refine .last ?_
    show segment.place place.container = _
    obtain rfl := Segment.place_container h
    cases hp with
    | member members others name =>
      obtain ⟨rfl, -⟩ := place_eq_member h
      rfl
    | element hlen k => exact place_element_of_length hlen h
    | slice items others s => exact place_slice_of_length h others
  | @folded segment next v items s k h hk =>
    obtain rfl := Segment.place_container h
    cases hp with
    | element hlen k => exact .folded (place_slice_of_length h _) (elementOf_of_length hlen hk)
  | @member segment next rest v child members name t h hc _ ih =>
    obtain ⟨rfl, rfl⟩ := place_eq_member h
    have hpart : (Value.object members).part? (.member name) = some child := hc
    rw [putAt_below hpart]
    exact .member rfl (Members.get?_put_self ..) (ih hp)
  | @element segment next rest v items k t h _ ih =>
    obtain rfl := Segment.place_container h
    show Locates _ ((Value.array items).putAt (t.below (.element k)).position _) _
    rw [putAt_element_below]
    exact .element_set h (ih hp)
  | @through segment next third rest v items s k t h hk _ ih =>
    obtain rfl := Segment.place_container h
    show Locates _ ((Value.array items).putAt (t.below (.element k)).position _) _
    rw [putAt_element_below]
    exact .through_set h hk (ih hp)

namespace Value

theorem set_eq_locate (v : Value) (path : Path) (value : Value) :
    v.set path value true = (do
      let t ← locate path v
      return v.putAt t.position (← t.place.set value t.segment)) := by
  rw [set, tolerate_true, editAt_eq_locate]

/-- A setting whose last step takes no slice fills the last place. -/
theorem exists_locates_of_set {v w new : Value} {path : Path} (h : v.set path new true = .ok w)
    (hs : ¬path.EndsInSlice v) :
    ∃ t, Locates path v t ∧ (∀ items s, t.place ≠ .slice items s) ∧
      w = v.putAt t.position (t.place.fill new).container := by
  rw [set_eq_locate] at h
  obtain ⟨t, ht, h⟩ := bind_eq_ok_iff.mp h
  have hl := locates_of_locate_eq ht
  have hp : ∀ items s, t.place ≠ .slice items s := fun items s hplace =>
    hs (hl.endsInSlice hplace)
  rw [Place.set_eq_fill hp] at h
  cases h
  exact ⟨t, hl, hp, rfl⟩

theorem set_of_locates {v : Value} {path : Path} {t : Target} (h : Locates path v t)
    (hp : ∀ items s, t.place ≠ .slice items s) (new : Value) :
    v.set path new true = .ok (v.putAt t.position (t.place.fill new).container) := by
  rw [set_eq_locate, h.locate_eq, ok_bind, Place.set_eq_fill hp]
  rfl

theorem get_of_set {v w new : Value} {path : Path} (h : v.set path new true = .ok w)
    (hs : ¬path.EndsInSlice v) : w.get path = .ok new := by
  obtain ⟨t, hl, hp, rfl⟩ := exists_locates_of_set h hs
  rw [(hl.refit (t.place.alike_fill new)).get_eq]
  exact Place.get_fill hp new

theorem set_of_get {v value : Value} {path : Path} (hne : path ≠ []) (hss : ¬path.SlicesSlice v)
    (h : v.get path = .ok value) : v.set path value true = .ok v := by
  rw [get_eq_locate hne hss] at h
  obtain ⟨t, ht, hplace⟩ := bind_eq_ok_iff.mp h
  have hat := (locates_of_locate_eq ht).at?_eq
  rw [set_eq_locate, ht, ok_bind, Place.set_of_get hplace, ok_bind]
  exact congrArg Except.ok (putAt_of_at? hat)

theorem set_of_set {v w first : Value} {path : Path} (h : v.set path first true = .ok w)
    (hs : ¬path.EndsInSlice v) (second : Value) :
    ∃ d, w.set path second true = .ok d ∧ v.set path second true = .ok d := by
  obtain ⟨t, hl, hp, rfl⟩ := exists_locates_of_set h hs
  refine ⟨_, ?_, set_of_locates hl hp second⟩
  have hp' := Place.fill_ne_slice hp first
  rw [set_of_locates (hl.refit (t.place.alike_fill first)) hp' second, putAt_putAt_self,
    Place.fill_fill]

/-- Reading and setting at one path form a lens. -/
theorem get_set_laws (v : Value) (path : Path) :
    (∀ new w, v.set path new true = .ok w → ¬path.EndsInSlice v → w.get path = .ok new) ∧
    (∀ value, path ≠ [] → ¬path.SlicesSlice v → v.get path = .ok value →
      v.set path value true = .ok v) ∧
    (∀ first second w, v.set path first true = .ok w → ¬path.EndsInSlice v →
      ∃ d, w.set path second true = .ok d ∧ v.set path second true = .ok d) :=
  ⟨fun _ _ h hs => get_of_set h hs, fun _ hne hss h => set_of_get hne hss h,
    fun _ second _ h hs => set_of_set h hs second⟩

/-- A document with three records under one name. -/
def threeRows (a b c : Value) : Value :=
  .object [("rows", .array [.object [("n", a)], .object [("n", b)], .object [("n", c)]])]

theorem get_set_laws_threeRows :
    let last : Path := [.name "rows", .slice ⟨some 1, none, none⟩, .index 1, .name "n"]
    let odd : Path := [.name "rows", .slice ⟨none, none, some (-2)⟩]
    let v := threeRows null (bool true) null
    let w := threeRows null (bool true) (bool false)
    (v.set last (bool false) true = .ok w ∧ ¬last.EndsInSlice v ∧ w.get last = .ok (bool false)) ∧
    (v.get odd = .ok (array [object [("n", null)], object [("n", null)]]) ∧ ¬odd.SlicesSlice v ∧
      v.set odd (array [object [("n", null)], object [("n", null)]]) true = .ok v) ∧
    ∃ d, w.set last (string "x") true = .ok d ∧ v.set last (string "x") true = .ok d := by
  intro last odd v w
  have hset : v.set last (bool false) true = .ok w := rfl
  have hend : ¬last.EndsInSlice v := by
    intro h
    have hsplit : Path.EndsInSlice
        ([.name "rows", .slice ⟨some 1, none, none⟩, .index 1] ++ [.name "n"]) v := h
    obtain ⟨u, hu, items, s, hs⟩ := endsInSlice_append_singleton.mp hsplit
    cases hu
    cases hs
  have hget : v.get odd = .ok (array [object [("n", null)], object [("n", null)]]) := rfl
  have hodd : ¬odd.SlicesSlice v := by
    intro hx
    obtain ⟨before, first, second, after, u, x, hp, hu, ⟨items, s, hs⟩, -⟩ := hx
    have hlen : odd.length = before.length + (after.length + 2) := by
      rw [hp, List.length_append, List.length_cons, List.length_cons]
    have htwo : odd.length = 2 := rfl
    obtain rfl := List.eq_nil_of_length_eq_zero (show before.length = 0 by omega)
    obtain ⟨rfl, -⟩ := List.cons.inj hp
    cases hu
    cases hs
  obtain ⟨hgs, -, hss⟩ := get_set_laws v last
  exact ⟨⟨hset, hend, hgs _ _ hset hend⟩,
    ⟨hget, hodd, (get_set_laws v odd).2.1 _ (List.cons_ne_nil _ _) hodd hget⟩,
    hss _ _ _ hset hend⟩

end Value

end JsonKeys
