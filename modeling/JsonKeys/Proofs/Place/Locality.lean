import JsonKeys.Proofs.Place.Lens
import JsonKeys.Proofs.Value.Frame

/-! Setting touches one position of the document only: the one that the path addresses. -/
namespace JsonKeys

namespace Place

/-- The step down to what a place holds, unless that is many items. -/
def coordinate? : Place → Option Coordinate
  | member _ name => some (.member name)
  | element _ k => some (.element k)
  | slice _ _ => none

theorem exists_coordinate {place : Place} (hp : ∀ items s, place ≠ slice items s) :
    ∃ c, place.coordinate? = some c := by
  cases place with
  | member members name => exact ⟨_, rfl⟩
  | element items k => exact ⟨_, rfl⟩
  | slice items s => exact absurd rfl (hp items s)

theorem container_fill {place : Place} {c : Coordinate} (h : place.coordinate? = some c)
    (value : Value) :
    (place.fill value).container = place.container.putPart c value := by
  cases place <;> cases h <;> rfl

theorem part?_container_fill {place : Place} {c : Coordinate} (h : place.coordinate? = some c)
    (value : Value) : (place.fill value).container.part? c = some value := by
  cases place with
  | member members name => cases h; exact Members.get?_put_self ..
  | element items k => cases h; exact List.getElem?_set_self k.isLt
  | slice items s => cases h

end Place

/-- The path ends at the position, which is there but perhaps for a member that can be put. A slice
and the index behind it are one step, to an element of the array that was sliced. -/
def Path.Addresses (path : Path) (v : Value) (position : Position) : Prop :=
  ∃ t c, Locates path v t ∧ t.place.coordinate? = some c ∧ position = t.position ++ [c]

theorem Path.Addresses.unique {path : Path} {v : Value} {position other : Position}
    (h : path.Addresses v position) (ho : path.Addresses v other) : other = position := by
  obtain ⟨t, c, hl, hc, rfl⟩ := h
  obtain ⟨u, d, hu, hd, rfl⟩ := ho
  obtain rfl : t = u := Except.ok.inj (hl.locate_eq.symm.trans hu.locate_eq)
  rw [Option.some.inj (hc.symm.trans hd)]

/-- A setting whose last step takes no slice changes the document where the path leads, and nowhere
else. -/
theorem Value.exists_differsAt_of_set {v w new : Value} {path : Path}
    (h : v.set path new true = .ok w) (hs : ¬path.EndsInSlice v) :
    ∃ position, (∀ other, path.Addresses v other ↔ other = position) ∧ w.at? position = some new ∧
      v.DiffersAt position w := by
  obtain ⟨t, hl, hp, rfl⟩ := exists_locates_of_set h hs
  obtain ⟨c, hc⟩ := Place.exists_coordinate hp
  have haddress : path.Addresses v (t.position ++ [c]) := ⟨t, c, hl, hc, rfl⟩
  refine ⟨t.position ++ [c], fun other => ⟨haddress.unique, fun heq => heq ▸ haddress⟩, ?_, ?_⟩
  · rw [at?_append, at?_putAt_self hl.at?_eq, Option.bind_some]
    simp only [at?, Place.part?_container_fill hc, Option.bind_some]
  · rw [Place.container_fill hc]
    exact differsAt_putAt_putPart hl.at?_eq c new

theorem Value.exists_differsAt_of_set_threeRows :
    let path : Path := [.name "rows", .slice ⟨some 1, none, none⟩, .index (-1), .name "m"]
    let position : Position := [.member "rows", .element 2, .member "m"]
    let v := threeRows null (bool true) null
    let w : Value := .object [("rows", .array [.object [("n", null)], .object [("n", bool true)],
      .object [("n", null), ("m", bool false)]])]
    v.set path (bool false) true = .ok w ∧ ¬path.EndsInSlice v ∧
      (∀ other, path.Addresses v other ↔ other = position) ∧ w.at? position = some (bool false) ∧
      v.DiffersAt position w := by
  intro path position v w
  have hset : v.set path (bool false) true = .ok w := rfl
  have hend : ¬path.EndsInSlice v := by
    intro h
    have hsplit : Path.EndsInSlice
        ([.name "rows", .slice ⟨some 1, none, none⟩, .index (-1)] ++ [.name "m"]) v := h
    obtain ⟨u, hu, items, s, hs⟩ := endsInSlice_append_singleton.mp hsplit
    cases hu
    cases hs
  have haddress : path.Addresses v position :=
    ⟨⟨[.member "rows", .element 2], .name "m", .member [("n", null)] "m"⟩, .member "m",
      locates_of_locate_eq rfl, rfl, rfl⟩
  obtain ⟨there, honly, hchange⟩ := exists_differsAt_of_set hset hend
  obtain rfl := (honly position).mp haddress
  exact ⟨hset, hend, honly, hchange⟩

end JsonKeys
