import JsonKeys.Proofs.Value.Members
import JsonKeys.Proofs.Value.Position

/-! What a change at one position leaves of the value around it. -/
namespace JsonKeys.Value

open Members

/-- The second value is the first one but for what it has at the position. What is neither above nor
below stays, an object elsewhere has the same names in the same order, the one of the position at
most behind them, and an array elsewhere has the same length. -/
structure DiffersAt (position : Position) (v w : Value) : Prop where
  elsewhere : ∀ other, Position.Apart position other → w.at? other = v.at? other
  object : ∀ other members, ¬position <+: other → v.at? other = some (.object members) →
    ∃ members', w.at? other = some (.object members') ∧ (names members' = names members ∨
      ∃ name ∉ names members, position = other ++ [.member name] ∧
        names members' = names members ++ [name])
  array : ∀ other items, ¬position <+: other → v.at? other = some (.array items) →
    ∃ items', w.at? other = some (.array items') ∧ items'.length = items.length

theorem object_putPart (members : Members Value) (c : Coordinate) (part : Value) :
    ∃ members', (object members).putPart c part = .object members' ∧
      (names members' = names members ∨
        ∃ name ∉ names members, c = .member name ∧ names members' = names members ++ [name]) := by
  cases c with
  | element k => exact ⟨members, rfl, .inl rfl⟩
  | member name =>
    refine ⟨members.put name part, rfl, ?_⟩
    by_cases hname : name ∈ names members
    · exact .inl (by rw [names_put, if_pos hname])
    · exact .inr ⟨name, hname, rfl, by rw [names_put, if_neg hname]⟩

theorem array_putPart (items : List Value) (c : Coordinate) (part : Value) :
    ∃ items', (array items).putPart c part = .array items' ∧ items'.length = items.length := by
  cases c with
  | member name => exact ⟨items, rfl, rfl⟩
  | element k => exact ⟨items.set k part, rfl, List.length_set⟩

section Put

variable {v u : Value} {position other : Position} (h : v.at? position = some u) (c : Coordinate)
  (new : Value)

include h

theorem at?_putAt_putPart_of_apart (hapart : Position.Apart (position ++ [c]) other) :
    (v.putAt position (u.putPart c new)).at? other = v.at? other := by
  obtain ⟨hbelow, habove⟩ := hapart
  by_cases hwithin : position <+: other
  · obtain ⟨rest, rfl⟩ := hwithin
    cases rest with
    | nil => exact absurd (by simp) habove
    | cons d rest =>
      have hcd : c ≠ d := by
        rintro rfl
        exact hbelow ⟨rest, by simp⟩
      rw [at?_append, at?_append, at?_putAt_self h, h]
      simp only [Option.bind_some, at?, part?_putPart_of_ne u hcd]
  · have hother : ¬other <+: position := fun h => habove (h.trans (List.prefix_append ..))
    exact at?_putAt_of_apart ⟨hwithin, hother⟩ _

/-- A value that is not below the change has at most one part put in it, a new one only where the
change is. -/
theorem at?_putAt_putPart {x : Value} (hbelow : ¬position ++ [c] <+: other)
    (hx : v.at? other = some x) :
    (v.putAt position (u.putPart c new)).at? other = some x ∨
      ∃ d part, (v.putAt position (u.putPart c new)).at? other = some (x.putPart d part) ∧
        (x.part? d = none → position ++ [c] = other ++ [d]) := by
  by_cases habove : other <+: position ++ [c]
  · rcases List.prefix_concat_iff.mp habove with heq | hwithin
    · exact absurd (heq ▸ List.prefix_refl _) hbelow
    · right
      obtain ⟨rest, rfl⟩ := hwithin
      rw [at?_append, hx, Option.bind_some] at h
      rw [at?_putAt_append, hx, Option.map_some]
      cases rest with
      | nil =>
        cases h
        exact ⟨c, new, rfl, fun _ => by rw [List.append_nil]⟩
      | cons d rest =>
        obtain ⟨part, hpart, -⟩ := Option.bind_eq_some_iff.mp h
        refine ⟨d, part.putAt rest (u.putPart c new), by simp only [putAt, hpart], fun hnone => ?_⟩
        rw [hnone] at hpart
        cases hpart
  · left
    rw [at?_putAt_putPart_of_apart h c new ⟨hbelow, habove⟩, hx]

theorem differsAt_putAt_putPart :
    v.DiffersAt (position ++ [c]) (v.putAt position (u.putPart c new)) where
  elsewhere _ := at?_putAt_putPart_of_apart h c new
  object other members hbelow hmembers := by
    rcases at?_putAt_putPart h c new hbelow hmembers with hsame | ⟨d, part, hput, hnew⟩
    · exact ⟨members, hsame, .inl rfl⟩
    · obtain ⟨members', heq, hnames⟩ := object_putPart members d part
      refine ⟨members', by rw [hput, heq], hnames.imp_right ?_⟩
      rintro ⟨name, hname, rfl, happend⟩
      exact ⟨name, hname, hnew (get?_eq_none hname), happend⟩
  array other items hbelow hitems := by
    rcases at?_putAt_putPart h c new hbelow hitems with hsame | ⟨d, part, hput, -⟩
    · exact ⟨items, hsame, rfl⟩
    · obtain ⟨items', heq, hlength⟩ := array_putPart items d part
      exact ⟨items', by rw [hput, heq], hlength⟩

end Put

/-- Another value at a position that is there is a change at this position. -/
theorem differsAt_putAt {v u : Value} {position : Position} (h : v.at? position = some u)
    (new : Value) :
    v.DiffersAt position (v.putAt position new) := by
  rcases List.eq_nil_or_concat position with rfl | ⟨above, c, rfl⟩
  · constructor
    · intro other hapart
      exact absurd List.nil_prefix hapart.1
    · intro other members hbelow
      exact absurd List.nil_prefix hbelow
    · intro other items hbelow
      exact absurd List.nil_prefix hbelow
  · rw [List.concat_eq_append] at h ⊢
    rw [at?_append] at h
    obtain ⟨container, habove, hpart⟩ := Option.bind_eq_some_iff.mp h
    obtain ⟨part, hc, -⟩ := Option.bind_eq_some_iff.mp hpart
    have hput : container.putAt [c] new = container.putPart c new := by
      simp only [putAt, hc]
    rw [putAt_append habove, hput]
    exact differsAt_putAt_putPart habove c new

end JsonKeys.Value
