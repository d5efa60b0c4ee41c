import JsonKeys.Place.Edit
import JsonKeys.Proofs.Except
import JsonKeys.Proofs.Value.Position

/-! Where a path leads: the concrete position of its last container, and a place in that. An edit
changes the container at this position. -/
namespace JsonKeys

/-- The value that has the place. -/
def Place.container : Place → Value
  | .member members _ => .object members
  | .element items _ | .slice items _ => .array items

theorem Segment.place_container {segment : Segment} {v : Value} {place : Place}
    (h : segment.place v = .ok place) : place.container = v := by
  unfold Segment.place at h
  split at h
  · split at h
    · cases h; rfl
    · cases h
  · split at h
    · obtain ⟨k, -, hk⟩ := bind_eq_ok_iff.mp h
      cases hk; rfl
    · cases h; rfl
    · cases h
  · cases h

theorem Segment.place_array_eq_slice_iff {segment : Segment} {items others : List Value}
    {s : Slice} : segment.place (.array items) = .ok (.slice others s) ↔
      segment.subscript? = some (.slice s) ∧ others = items := by
  unfold Segment.place
  cases hsub : segment.subscript? with
  | none => simp
  | some subscript =>
    cases subscript with
    | slice t => simp [eq_comm, and_comm]
    | index i =>
      simp only [bind_eq_ok_iff]
      simp [pure, Except.pure]

theorem Segment.place_array_eq_element_iff {segment : Segment} {items : List Value}
    {k : Fin items.length} : segment.place (.array items) = .ok (.element items k) ↔
      ∃ i, segment.subscript? = some (.index i) ∧ indexPosition i items.length = .ok k := by
  unfold Segment.place
  cases hsub : segment.subscript? with
  | none => simp
  | some subscript =>
    cases subscript with
    | slice t => simp
    | index i =>
      simp only [bind_eq_ok_iff]
      simp [pure, Except.pure]

/-- The end of a path: the position of the last container, the segment taken from it, and the place
that this addresses. -/
structure Target where
  position : Position
  segment : Segment
  place : Place

def Target.below (c : Coordinate) (t : Target) : Target := { t with position := c :: t.position }

/-- Follows a path to its end. A slice and the index behind it count as one element of the array
itself. -/
def locate : Path → Value → Except Fault Target
  | [], v => .error (.kindMismatch "" v.kind)
  | [segment], v => do return ⟨[], segment, ← segment.place v⟩
  | segment :: next :: rest, v => do
    match ← segment.place v with
    | .member members name =>
      match members.get? name with
      | some child => return (← locate (next :: rest) child).below (.member name)
      | none => .error (.missingMember name)
    | .element items k => return (← locate (next :: rest) (items.get k)).below (.element k)
    | .slice items s =>
      let k ← elementOf s next items
      match rest with
      | [] => return ⟨[], next, .element items k⟩
      | _ :: _ => return (← locate rest (items.get k)).below (.element k)

private theorem edit_below {edit : Segment → Place → Except Fault Value} {path : Path}
    {v child : Value} {c : Coordinate} (hc : v.part? c = some child)
    (h : editAt edit path child = (do
      let t ← locate path child
      return child.putAt t.position (← edit t.segment t.place))) :
    (do return v.putPart c (← editAt edit path child)) = (do
      let t ← (do return (← locate path child).below c)
      return v.putAt t.position (← edit t.segment t.place)) := by
  rw [h]
  simp only [bind_assoc, pure_bind, Target.below, Value.putAt, hc]

/-- An edit puts what it makes of the last place where the last container was. -/
theorem editAt_eq_locate (edit : Segment → Place → Except Fault Value) :
    ∀ (path : Path) (v : Value), editAt edit path v = (do
      let t ← locate path v
      return v.putAt t.position (← edit t.segment t.place))
  | [], v => rfl
  | [segment], v => by
    cases h : segment.place v <;> simp [editAt, locate, h, Value.putAt]
  | segment :: next :: rest, v => by
    cases h : segment.place v with
    | error e => simp [editAt, locate, h]
    | ok place =>
      obtain rfl := Segment.place_container h
      cases place with
      | member members name =>
        cases hc : members.get? name with
        | none => simp [editAt, locate, h, hc]
        | some child =>
          have hp : (Place.member members name).container.part? (.member name) = some child := hc
          simp only [editAt, locate, h, hc, ok_bind]
          exact edit_below hp (editAt_eq_locate edit (next :: rest) child)
      | element items k =>
        have hc : (Place.element items k).container.part? (.element k) = some (items.get k) := by
          simp [Place.container, Value.part?]
        simp only [editAt, locate, h, ok_bind]
        exact edit_below hc (editAt_eq_locate edit (next :: rest) (items.get k))
      | slice items s =>
        cases hk : elementOf s next items with
        | error e => simp [editAt, locate, h, hk]
        | ok k =>
          have hc : (Place.slice items s).container.part? (.element k) = some (items.get k) := by
            simp [Place.container, Value.part?]
          cases rest with
          | nil => simp [editAt, locate, h, hk, Value.putAt]
          | cons third rest =>
            simp only [editAt, locate, h, hk, ok_bind]
            exact edit_below hc (editAt_eq_locate edit (third :: rest) (items.get k))

/-- The paths that have an end. -/
inductive Locates : Path → Value → Target → Prop
  | last {segment : Segment} {v : Value} {place : Place} (h : segment.place v = .ok place) :
      Locates [segment] v ⟨[], segment, place⟩
  | folded {segment next : Segment} {v : Value} {items : List Value} {s : Slice}
      {k : Fin items.length} (h : segment.place v = .ok (.slice items s))
      (hk : elementOf s next items = .ok k) :
      Locates [segment, next] v ⟨[], next, .element items k⟩
  | member {segment next : Segment} {rest : Path} {v child : Value} {members : Members Value}
      {name : String} {t : Target} (h : segment.place v = .ok (.member members name))
      (hc : members.get? name = some child) (ht : Locates (next :: rest) child t) :
      Locates (segment :: next :: rest) v (t.below (.member name))
  | element {segment next : Segment} {rest : Path} {v : Value} {items : List Value}
      {k : Fin items.length} {t : Target} (h : segment.place v = .ok (.element items k))
      (ht : Locates (next :: rest) (items.get k) t) :
      Locates (segment :: next :: rest) v (t.below (.element k))
  | through {segment next third : Segment} {rest : Path} {v : Value} {items : List Value}
      {s : Slice} {k : Fin items.length} {t : Target}
      (h : segment.place v = .ok (.slice items s)) (hk : elementOf s next items = .ok k)
      (ht : Locates (third :: rest) (items.get k) t) :
      Locates (segment :: next :: third :: rest) v (t.below (.element k))

theorem Locates.locate_eq {path : Path} {v : Value} {t : Target} (h : Locates path v t) :
    locate path v = .ok t := by
  induction h with
  | last h => simp only [locate, h, ok_bind]; rfl
  | folded h hk => simp only [locate, h, hk, ok_bind]; rfl
  | member h hc _ ih => simp only [locate, h, hc, ih, ok_bind]; rfl
  | element h _ ih => simp only [locate, h, ih, ok_bind]; rfl
  | through h hk _ ih => simp only [locate, h, hk, ih, ok_bind]; rfl

theorem locates_of_locate_eq : ∀ {path : Path} {v : Value} {t : Target},
    locate path v = .ok t → Locates path v t
  | [segment], v, t, ht => by
    obtain ⟨place, h, ht⟩ := bind_eq_ok_iff.mp ht
    cases ht
    exact .last h
  | segment :: next :: rest, v, t, ht => by
    obtain ⟨place, h, ht⟩ := bind_eq_ok_iff.mp ht
    cases place with
    | member members name =>
      cases hc : members.get? name with
      | none => simp [hc] at ht
      | some child =>
        simp only [hc] at ht
        obtain ⟨u, hu, ht⟩ := bind_eq_ok_iff.mp ht
        cases ht
        exact .member h hc (locates_of_locate_eq hu)
    | element items k =>
      obtain ⟨u, hu, ht⟩ := bind_eq_ok_iff.mp ht
      cases ht
      exact .element h (locates_of_locate_eq hu)
    | slice items s =>
      obtain ⟨k, hk, ht⟩ := bind_eq_ok_iff.mp ht
      cases rest with
      | nil =>
        cases ht
        exact .folded h hk
      | cons third rest =>
        obtain ⟨u, hu, ht⟩ := bind_eq_ok_iff.mp ht
        cases ht
        exact .through h hk (locates_of_locate_eq hu)

end JsonKeys
