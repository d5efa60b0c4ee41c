import Mathlib.Algebra.Order.BigOperators.Group.List
import Mathlib.Algebra.Order.Ring.Nat
import Mathlib.Data.Fintype.Card
import JsonKeys.Place.Read
import JsonKeys.Proofs.Place.Selection
import JsonKeys.Proofs.Place.Target
import JsonKeys.Proofs.Value.Position

/-!
Values whose arrays are short enough for their lengths to be 64-bit words. What is read from such a
value is such a value, the arrays that slices select among it.
-/
namespace JsonKeys

/-- A slice selects no position twice, and so no more of them than there are. -/
theorem Slice.length_le_of_positions {s : Slice} {len : Nat} {ks : List (Fin len)}
    (h : s.positions len = .ok ks) :
    ks.length ≤ len := by
  have hnodup := nodup_of_positions? (positions_eq_ok_iff.mp h)
  have hcard := hnodup.length_le_card
  rwa [Fintype.card_fin] at hcard

namespace Value

/-- Every array in the value has fewer than `2 ^ 63` items. -/
def Short (v : Value) : Prop :=
  ∀ position items, v.at? position = some (.array items) → items.length < 0x8000000000000000

namespace Short

theorem length_lt {items : List Value} (h : (array items).Short) :
    items.length < 0x8000000000000000 :=
  h [] items rfl

theorem part? {v part : Value} {c : Coordinate} (h : v.Short) (hpart : v.part? c = some part) :
    part.Short := by
  intro position items hat
  apply h (c :: position) items
  rw [at?, hpart]
  exact hat

theorem member {members : Members Value} {name : String} {child : Value}
    (h : (object members).Short) (hget : members.get? name = some child) : child.Short :=
  h.part? (show (object members).part? (.member name) = some child from hget)

theorem item {items : List Value} (h : (array items).Short) (k : Fin items.length) :
    (items.get k).Short :=
  have hpart : (array items).part? (.element k) = some (items.get k) :=
    List.getElem?_eq_getElem k.isLt
  h.part? hpart

/-- An array of items of the value, with no more of them than before. -/
theorem pick {items : List Value} (h : (array items).Short) {ks : List (Fin items.length)}
    (hks : ks.length ≤ items.length) : (array (pick items ks)).Short := by
  intro position others hat
  cases position with
  | nil =>
    cases hat
    have hlen := h.length_lt
    rw [JsonKeys.pick, List.length_map]
    omega
  | cons c position =>
    obtain ⟨part, hpart, hat⟩ := Option.bind_eq_some_iff.mp hat
    cases c with
    | member name => cases hpart
    | element j =>
      have hmem : part ∈ JsonKeys.pick items ks := List.mem_of_getElem? hpart
      obtain ⟨k, -, rfl⟩ := List.mem_map.mp hmem
      exact h.item k position others hat

theorem follow {v w : Value} {segment : Segment} (h : v.Short) (hw : v.follow segment = .ok w) :
    w.Short := by
  obtain ⟨place, hplace, hget⟩ := bind_eq_ok_iff.mp hw
  obtain rfl := Segment.place_container hplace
  cases place with
  | member members name =>
    cases hm : members.get? name with
    | none => simp [Place.get, hm] at hget
    | some child =>
      simp only [Place.get, hm, Except.ok.injEq] at hget
      exact hget ▸ h.member hm
  | element items k =>
    obtain rfl : items.get k = w := Except.ok.inj hget
    exact h.item k
  | slice items s =>
    obtain ⟨ks, hks, hw⟩ := bind_eq_ok_iff.mp hget
    obtain rfl : array (JsonKeys.pick items ks) = w := Except.ok.inj hw
    exact h.pick (Slice.length_le_of_positions hks)

end Short

theorem itemCount_eq_sum (items : List Value) : itemCount items = (items.map nodeCount).sum := by
  induction items with
  | nil => rfl
  | cons v items ih => rw [itemCount, ih, List.map_cons, List.sum_cons]

theorem memberCount_eq_sum (members : Members Value) :
    memberCount members = (members.map fun m => m.2.nodeCount).sum := by
  induction members with
  | nil => rfl
  | cons m members ih => rw [memberCount, ih, List.map_cons, List.sum_cons]

theorem length_le_itemCount (items : List Value) : items.length ≤ itemCount items := by
  rw [itemCount_eq_sum, ← List.length_map nodeCount]
  apply List.length_le_sum_of_one_le
  intro count hcount
  obtain ⟨v, -, rfl⟩ := List.mem_map.mp hcount
  cases v <;> simp [nodeCount]

theorem nodeCount_part?_le {v part : Value} {c : Coordinate} (h : v.part? c = some part) :
    part.nodeCount ≤ v.nodeCount := by
  unfold part? at h
  split at h
  · have hcount := List.mem_map_of_mem (f := fun m => m.2.nodeCount) (Members.mem_of_get? h)
    rw [nodeCount, memberCount_eq_sum]
    exact Nat.le_succ_of_le (List.le_sum_of_mem hcount)
  · have hcount := List.mem_map_of_mem (f := nodeCount) (List.mem_of_getElem? h)
    rw [nodeCount, itemCount_eq_sum]
    exact Nat.le_succ_of_le (List.le_sum_of_mem hcount)
  · cases h

theorem nodeCount_at?_le {v part : Value} {position : Position} (h : v.at? position = some part) :
    part.nodeCount ≤ v.nodeCount := by
  induction position generalizing v with
  | nil =>
    cases h
    exact Nat.le_refl _
  | cons c position ih =>
    obtain ⟨child, hchild, hpart⟩ := Option.bind_eq_some_iff.mp h
    exact Nat.le_trans (ih hpart) (nodeCount_part?_le hchild)

/-- A value that holds fewer than `2 ^ 63` others has no longer array. -/
theorem short_of_nodeCount {v : Value} (h : v.nodeCount ≤ 0x8000000000000000) : v.Short := by
  intro position items hat
  have hcount := nodeCount_at?_le hat
  have hlen := length_le_itemCount items
  rw [nodeCount] at hcount
  omega

end Value

end JsonKeys
