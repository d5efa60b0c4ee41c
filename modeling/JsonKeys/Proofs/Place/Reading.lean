import JsonKeys.Proofs.Place.Target

/-! Reading at a path and following it to its end come to the same, unless a slice is taken of a
slice. -/
namespace JsonKeys

/-- The segment takes a slice of the value. -/
def Segment.Slices (segment : Segment) (v : Value) : Prop :=
  ∃ items s, segment.place v = .ok (.slice items s)

/-- On the path a slice is taken of what a slice selects. -/
def Path.SlicesSlice (path : Path) (v : Value) : Prop :=
  ∃ before first second after u w, path = before ++ first :: second :: after ∧
    v.get before = .ok u ∧ first.Slices u ∧ u.follow first = .ok w ∧ second.Slices w

namespace Value

theorem get_cons (v : Value) (segment : Segment) (rest : Path) :
    v.get (segment :: rest) = (do (← v.follow segment).get rest) := by
  simp only [get, List.foldlM_cons]

theorem get_singleton (v : Value) (segment : Segment) : v.get [segment] = v.follow segment := by
  rw [get_cons]
  cases v.follow segment <;> rfl

theorem follow_of_place {v : Value} {segment : Segment} {place : Place}
    (h : segment.place v = .ok place) : v.follow segment = place.get := by
  simp only [follow, h, ok_bind]

end Value

theorem Path.SlicesSlice.cons {segment : Segment} {rest : Path} {v w : Value}
    (h : v.follow segment = .ok w) (hr : SlicesSlice rest w) : SlicesSlice (segment :: rest) v := by
  obtain ⟨before, first, second, after, u, x, rfl, hu, hs⟩ := hr
  refine ⟨segment :: before, first, second, after, u, x, rfl, ?_, hs⟩
  rw [Value.get_cons, h]
  exact hu

theorem elementOf_eq_ok_iff {s : Slice} {next : Segment} {items : List Value}
    {k : Fin items.length} : elementOf s next items = .ok k ↔
      ∃ ks i j, s.positions items.length = .ok ks ∧ next.subscript? = some (.index i) ∧
        indexPosition i ks.length = .ok j ∧ ks.get j = k := by
  unfold elementOf
  simp only [bind_eq_ok_iff]
  cases hsub : next.subscript? with
  | none => simp
  | some subscript =>
    cases subscript with
    | slice t => simp
    | index i =>
      simp only [bind_eq_ok_iff]
      simp [pure, Except.pure]

theorem indexPosition_cast (i : Int64) {m n : Nat} (h : m = n) :
    indexPosition i n = (indexPosition i m).map (Fin.cast h) := by
  subst h
  cases indexPosition i m <;> rfl

/-- Reading an element of what a slice selects is reading that element of the array. -/
theorem follow_pick {s : Slice} {next : Segment} {items : List Value}
    {ks : List (Fin items.length)} (hs : s.positions items.length = .ok ks)
    (hn : ¬next.Slices (.array (pick items ks))) :
    (Value.array (pick items ks)).follow next =
      (do return items.get (← elementOf s next items)) := by
  unfold elementOf
  rw [hs, ok_bind]
  cases hsub : next.subscript? with
  | none =>
    simp only [Value.follow, Segment.place, hsub]
    rfl
  | some subscript =>
    cases subscript with
    | slice t => exact absurd ⟨pick items ks, t, by simp only [Segment.place, hsub]⟩ hn
    | index i =>
      have hlen : ks.length = (pick items ks).length := by simp [pick]
      simp only [Value.follow, Segment.place, hsub, indexPosition_cast i hlen]
      cases indexPosition i ks.length with
      | error e => rfl
      | ok j =>
        show Except.ok ((pick items ks).get (Fin.cast hlen j)) = Except.ok (items.get (ks.get j))
        simp only [pick, List.get_eq_getElem, List.getElem_map]
        rfl

/-- Only an index can stand behind a slice. -/
theorem not_slices_of_elementOf {s : Slice} {next : Segment} {items : List Value}
    {k : Fin items.length} (hk : elementOf s next items = .ok k) (others : List Value) :
    ¬next.Slices (.array others) := by
  obtain ⟨ks, i, j, -, hi, -, -⟩ := elementOf_eq_ok_iff.mp hk
  intro hx
  obtain ⟨xs, t, ht⟩ := hx
  have hslice := (Segment.place_array_eq_slice_iff.mp ht).1
  rw [hi] at hslice
  cases hslice

theorem follow_of_elementOf {s : Slice} {next : Segment} {items : List Value}
    {k : Fin items.length} (hk : elementOf s next items = .ok k) :
    ∃ ks, s.positions items.length = .ok ks ∧
      (Value.array (pick items ks)).follow next = .ok (items.get k) := by
  obtain ⟨ks, hs, -⟩ := bind_eq_ok_iff.mp hk
  refine ⟨ks, hs, ?_⟩
  rw [follow_pick hs (not_slices_of_elementOf hk _), hk]
  rfl

theorem follow_slice {segment : Segment} {v : Value} {items : List Value} {s : Slice}
    (h : segment.place v = .ok (.slice items s)) :
    v.follow segment = (do return .array (pick items (← s.positions items.length))) :=
  Value.follow_of_place h

theorem get_slice_cons {segment next : Segment} {rest : Path} {v : Value} {items : List Value}
    {s : Slice} (h : segment.place v = .ok (.slice items s))
    (hn : ∀ w, v.follow segment = .ok w → ¬next.Slices w) :
    v.get (segment :: next :: rest) = (do (items.get (← elementOf s next items)).get rest) := by
  have hf := follow_slice h
  rw [Value.get_cons, hf]
  cases hs : s.positions items.length with
  | error e => simp [elementOf, hs]
  | ok ks =>
    have hw : v.follow segment = .ok (.array (pick items ks)) := by rw [hf, hs]; rfl
    simp only [ok_bind, pure_bind, Value.get_cons, follow_pick hs (hn _ hw)]
    rw [bind_assoc]
    simp only [pure_bind]

/-- If no slice is taken of a slice, a read is a read of the last place. -/
theorem get_eq_locate : ∀ {path : Path} {v : Value}, path ≠ [] → ¬path.SlicesSlice v →
    v.get path = (do (← locate path v).place.get)
  | [segment], v, _, _ => by
    rw [Value.get_singleton]
    simp only [locate, Value.follow, bind_assoc, pure_bind]
  | segment :: next :: rest, v, _, hss => by
    cases h : segment.place v with
    | error e => simp only [Value.get_cons, Value.follow, locate, h, error_bind]
    | ok place =>
      have hf := Value.follow_of_place h
      cases place with
      | member members name =>
        cases hc : members.get? name with
        | none => simp only [Value.get_cons v, hf, Place.get, locate, h, hc, ok_bind, error_bind]
        | some child =>
          have hw : v.follow segment = .ok child := by rw [hf]; simp only [Place.get, hc]
          have ih := get_eq_locate (List.cons_ne_nil next rest) fun hr => hss (.cons hw hr)
          rw [Value.get_cons, hw, ok_bind, ih]
          simp only [locate, h, hc, ok_bind, bind_assoc, pure_bind, Target.below]
      | element items k =>
        have ih := get_eq_locate (List.cons_ne_nil next rest) fun hr => hss (.cons hf hr)
        rw [Value.get_cons, hf, Place.get, ok_bind, ih]
        simp only [locate, h, ok_bind, bind_assoc, pure_bind, Target.below]
      | slice items s =>
        have hn : ∀ w, v.follow segment = .ok w → ¬next.Slices w := fun w hw hs =>
          hss ⟨[], segment, next, rest, v, w, rfl, rfl, ⟨items, s, h⟩, hw, hs⟩
        rw [get_slice_cons h hn]
        cases hk : elementOf s next items with
        | error e => simp only [locate, h, hk, ok_bind, error_bind]
        | ok k =>
          cases rest with
          | nil => simp only [locate, h, hk, ok_bind, pure_bind, Place.get]; rfl
          | cons third rest =>
            obtain ⟨ks, hs, hnext⟩ := follow_of_elementOf hk
            have hw : v.follow segment = .ok (.array (pick items ks)) := by
              rw [hf, Place.get, hs]; rfl
            have ih := get_eq_locate (List.cons_ne_nil third rest) fun hr =>
              hss (.cons hw (.cons hnext hr))
            simp only [locate, h, hk, ok_bind, bind_assoc, pure_bind, Target.below, ih]

theorem get_folded {segment next : Segment} {v : Value} {items : List Value} {s : Slice}
    {k : Fin items.length} (h : segment.place v = .ok (.slice items s))
    (hk : elementOf s next items = .ok k) (rest : Path) :
    v.get (segment :: next :: rest) = (items.get k).get rest := by
  have hn : ∀ w, v.follow segment = .ok w → ¬next.Slices w := by
    intro w hw
    rw [follow_slice h] at hw
    obtain ⟨ks, -, hw⟩ := bind_eq_ok_iff.mp hw
    cases hw
    exact not_slices_of_elementOf hk _
  rw [get_slice_cons h hn, hk, ok_bind]

theorem Locates.get_eq {path : Path} {v : Value} {t : Target} (h : Locates path v t) :
    v.get path = t.place.get := by
  induction h with
  | last h => rw [Value.get_singleton, Value.follow_of_place h]
  | folded h hk => exact get_folded h hk []
  | member h hc _ ih =>
    rw [Value.get_cons, Value.follow_of_place h]
    simp only [Place.get, hc, ok_bind]
    exact ih
  | element h _ ih =>
    rw [Value.get_cons, Value.follow_of_place h]
    exact ih
  | through h hk _ ih =>
    rw [get_folded h hk]
    exact ih

theorem Locates.at?_eq {path : Path} {v : Value} {t : Target} (h : Locates path v t) :
    v.at? t.position = some t.place.container := by
  induction h with
  | last h => rw [Segment.place_container h]; rfl
  | folded h hk => exact congrArg some (Segment.place_container h).symm
  | member h hc _ ih =>
    obtain rfl := Segment.place_container h
    simp only [Target.below, Value.at?, Place.container, Value.part?, hc]
    exact ih
  | element h _ ih =>
    obtain rfl := Segment.place_container h
    simpa [Target.below, Value.at?, Place.container, Value.part?] using ih
  | through h hk _ ih =>
    obtain rfl := Segment.place_container h
    simpa [Target.below, Value.at?, Place.container, Value.part?] using ih

/-- The last place is addressed by the last segment in what the rest of the path selects, but for
an element that was found behind a slice. -/
theorem Locates.last_step {path : Path} {v : Value} {t : Target} (h : Locates path v t) :
    ∃ before u, path = before ++ [t.segment] ∧ v.get before = .ok u ∧
      (t.segment.place u = .ok t.place ∨ ∃ items k, t.place = .element items k) := by
  induction h with
  | @last segment v place h => exact ⟨[], v, rfl, rfl, .inl h⟩
  | @folded segment next v items s k h hk =>
    obtain ⟨ks, hs, -⟩ := follow_of_elementOf hk
    refine ⟨[segment], .array (pick items ks), rfl, ?_, .inr ⟨items, k, rfl⟩⟩
    rw [Value.get_singleton, follow_slice h, hs]
    rfl
  | @member segment next rest v child members name t h hc _ ih =>
    obtain ⟨before, u, hp, hu, hlast⟩ := ih
    refine ⟨segment :: before, u, congrArg _ hp, ?_, hlast⟩
    rw [Value.get_cons, Value.follow_of_place h]
    simp only [Place.get, hc]
    exact hu
  | @element segment next rest v items k t h _ ih =>
    obtain ⟨before, u, hp, hu, hlast⟩ := ih
    refine ⟨segment :: before, u, congrArg _ hp, ?_, hlast⟩
    rw [Value.get_cons, Value.follow_of_place h]
    exact hu
  | @through segment next third rest v items s k t h hk _ ih =>
    obtain ⟨before, u, hp, hu, hlast⟩ := ih
    refine ⟨segment :: next :: before, u, congrArg (segment :: next :: ·) hp, ?_, hlast⟩
    rw [get_folded h hk]
    exact hu

/-- A path ends at a member, which need not be there, of the object that the rest of it selects. -/
theorem locates_member {last : Segment} {members : Members Value} {name : String}
    (hlast : last.place (.object members) = .ok (.member members name)) :
    ∀ {before : Path} {v : Value}, v.get before = .ok (.object members) →
      ¬(before ++ [last]).SlicesSlice v →
      ∃ position, Locates (before ++ [last]) v ⟨position, last, .member members name⟩
  | [], v, hu, _ => by
    cases hu
    exact ⟨[], .last hlast⟩
  | segment :: before, v, hu, hss => by
    obtain ⟨next, rest, hb⟩ := List.exists_cons_of_ne_nil (List.concat_ne_nil last before)
    rw [Value.get_cons] at hu
    obtain ⟨w, hw, hu⟩ := bind_eq_ok_iff.mp hu
    obtain ⟨place, h, hplace⟩ := bind_eq_ok_iff.mp hw
    cases place with
    | member siblings key =>
      cases hc : siblings.get? key with
      | none => simp [Place.get, hc] at hplace
      | some child =>
        simp only [Place.get, hc, Except.ok.injEq] at hplace
        subst hplace
        obtain ⟨position, ht⟩ := locates_member hlast hu fun hr => hss (.cons hw hr)
        rw [hb] at ht
        rw [List.cons_append, hb]
        exact ⟨_, .member h hc ht⟩
    | element items k =>
      cases hplace
      obtain ⟨position, ht⟩ := locates_member hlast hu fun hr => hss (.cons hw hr)
      rw [hb] at ht
      rw [List.cons_append, hb]
      exact ⟨_, .element h ht⟩
    | slice items s =>
      obtain ⟨ks, hs, hks⟩ := bind_eq_ok_iff.mp hplace
      cases hks
      cases before with
      | nil => cases hu
      | cons second before =>
        have hn : ¬second.Slices (.array (pick items ks)) := fun hsecond =>
          hss ⟨[], segment, second, before ++ [last], v, _, rfl, rfl, ⟨items, s, h⟩, hw, hsecond⟩
        rw [Value.get_cons, follow_pick hs hn, bind_assoc] at hu
        obtain ⟨k, hk, hu⟩ := bind_eq_ok_iff.mp hu
        have hnext : (Value.array (pick items ks)).follow second = .ok (items.get k) := by
          rw [follow_pick hs hn, hk]; rfl
        obtain ⟨position, ht⟩ := locates_member hlast hu fun hr => hss (.cons hw (.cons hnext hr))
        obtain ⟨third, rest, hb⟩ := List.exists_cons_of_ne_nil (List.concat_ne_nil last before)
        rw [hb] at ht
        rw [List.cons_append, List.cons_append, hb]
        exact ⟨_, .through h hk ht⟩

end JsonKeys
