import JsonKeys.Place.Edit
import JsonKeys.Proofs.Except
import JsonKeys.Proofs.Path.Slice

/-! What a slice selects, as a stretch of the array or one by one. -/
namespace JsonKeys

namespace Slice

theorem positions_eq_ok_iff {s : Slice} {len : Nat} {ks : List (Fin len)} :
    s.positions len = .ok ks ↔ s.positions? len = some ks := by
  unfold positions
  cases s.positions? len <;> simp

/-- A slice without gaps selects a stretch of the array. -/
theorem pick_of_span? {s : Slice} {items : List Value} {ks : List (Fin items.length)}
    {start stop : Nat} (hk : s.positions? items.length = some ks)
    (hspan : s.span? items.length = some (start, stop)) :
    start ≤ stop ∧ pick items ks = (items.drop start).take (stop - start) := by
  obtain ⟨hle, hstop, -, -, hstretch⟩ := stretch_of_span? hk hspan
  have hlength := length_of_stretch hstretch
  refine ⟨hle, ?_⟩
  apply List.ext_getElem
  · simp only [pick, List.length_map, List.length_take, List.length_drop]
    omega
  · intro i hi hi'
    have hk : i < ks.length := by simpa [pick] using hi
    have hposition : (ks[i] : Nat) = start + i := getElem_of_stretch hstretch hk
    simp only [pick, List.getElem_map, List.getElem_take, List.getElem_drop]
    exact getElem_congr_idx (c := items) hposition

end Slice

theorem take_append_pick_append_drop {s : Slice} {items : List Value} {ks : List (Fin items.length)}
    {start stop : Nat} (hk : s.positions? items.length = some ks)
    (hspan : s.span? items.length = some (start, stop)) :
    items.take start ++ pick items ks ++ items.drop stop = items := by
  obtain ⟨hle, hpick⟩ := Slice.pick_of_span? hk hspan
  have hdrop : items.drop stop = (items.drop start).drop (stop - start) := by
    rw [List.drop_drop, Nat.add_sub_cancel' hle]
  rw [hpick, hdrop, List.append_assoc, List.take_append_drop, List.take_append_drop]

theorem setMany_pick (items : List Value) (ks : List (Fin items.length)) :
    setMany items ks (pick items ks) = items := by
  unfold setMany
  induction ks with
  | nil => rfl
  | cons k ks ih =>
    simp only [pick, List.map_cons, List.zip_cons_cons, List.foldl_cons]
    have hk : items.set k (items.get k) = items := List.set_getElem_self k.isLt
    rw [hk]
    exact ih

end JsonKeys
