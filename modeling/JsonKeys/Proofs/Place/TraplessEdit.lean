import JsonKeys.Proofs.Place.Removal
import JsonKeys.Proofs.Place.TraplessLocate

/-!
Checked edits. In documents whose arrays are all shorter than `2 ^ 63` neither reading nor setting
nor erasing meets a trap.
-/
namespace JsonKeys

namespace Checked

/-- What a checked change makes of a container is what `put` makes of the place. -/
structure Changes (change : Step → Value → Segment → Checked Value)
    (put : Segment → Place → Except Fault Value) : Prop where
  member : ∀ members name last,
    change (.member name) (.object members) last = ofFault (put last (.member members name))
  index : ∀ items i last, (Value.array items).Short → change (.index i) (.array items) last =
    ofFault (JsonKeys.indexPosition i items.length >>= fun k => put last (.element items k))
  slice : ∀ items s last, (Value.array items).Short →
    change (.slice s) (.array items) last = ofFault (put last (.slice items s))

theorem Changes.of_agrees {change : Step → Value → Segment → Checked Value}
    {put : Segment → Place → Except Fault Value} (h : Changes change put) {last : Segment}
    {run : Checked Reference} {result : Except Fault Target} (hagrees : Agrees last run result)
    (v : Value) :
    (do
      let r ← run
      return v.putAt r.position (← change r.step r.container last)) =
    ofFault (do
      let t ← result
      return v.putAt t.position (← put t.segment t.place)) := by
  cases hagrees with
  | fault f => rfl
  | member position members name =>
    simp only [ok_bind, h.member, ofFault_bind]
    rfl
  | index position items i hv =>
    simp only [ok_bind, h.index items i last hv, ofFault_bind, bind_assoc]
    rfl
  | slice position items s hv =>
    simp only [ok_bind, h.slice items s last hv, ofFault_bind]
    rfl

theorem Changes.edit_eq {change : Step → Value → Segment → Checked Value}
    {put : Segment → Place → Except Fault Value} (h : Changes change put) {v : Value} (hv : v.Short)
    (path : Path) :
    edit change path v = ofFault (editAt put path v) := by
  by_cases hpath : path = []
  · rw [hpath]
    rfl
  · have hpos : 0 < path.length := List.length_pos_iff.mpr hpath
    have hlast : path[path.length - 1]? = some path[path.length - 1] :=
      List.getElem?_eq_getElem (by omega)
    have hitem : item path (path.length - 1) = .ok path[path.length - 1] := by
      rw [item, hlast]
    have hagrees := agrees_locate hlast hpos hv
    rw [List.drop_zero] at hagrees
    rw [editAt_eq_locate, ← h.of_agrees hagrees, edit, if_neg (by simpa using hpath)]
    simp only [hitem, ok_bind]

section Change

variable {α : Type}

theorem foldlM_overwrite {n : Nat} (pairs : List (Fin n × α)) {acc : List α}
    (hacc : acc.length = n) :
    pairs.foldlM (fun acc kv => overwrite acc kv.1.val kv.2) acc =
      .ok (pairs.foldl (fun acc kv => acc.set kv.1 kv.2) acc) := by
  induction pairs generalizing acc with
  | nil => rfl
  | cons pair pairs ih =>
    have hlt : pair.1.val < acc.length := by omega
    rw [List.foldlM_cons, List.foldl_cons, overwrite, if_pos hlt, ok_bind]
    exact ih (by rw [List.length_set, hacc])

theorem replaceSlice_eq {items : List Value} (hv : (Value.array items).Short) (s : Slice)
    (value : Value) (last : Segment) :
    replaceSlice items s value last = ofFault (JsonKeys.replaceSlice items s value last) := by
  cases value with
  | array values =>
    obtain ⟨span, hword, hspan⟩ := s.exists_wordSpan hv.length_lt
    simp only [replaceSlice, JsonKeys.replaceSlice, hword, ← hspan]
    cases span with
    | some ends =>
      have hbounds := Slice.bounds_of_span? hspan.symm
      show (splice items ends.1.toNat ends.2.toNat values >>= fun new => pure (Value.array new)) = _
      rw [splice, if_pos hbounds]
      rfl
    | none =>
      simp only [ofWord_ok, ok_bind, Option.map_none, positions_eq s hv.length_lt]
      cases s.positions items.length with
      | error f => rfl
      | ok ks =>
        simp only [ofFault_ok, ok_bind, List.length_map]
        by_cases hlen : ks.length = values.length
        · have hzip : (ks.map Fin.val).zip values = (ks.zip values).map (Prod.map Fin.val id) :=
            List.zip_map_left ..
          have hfold :
              ((ks.map Fin.val).zip values).foldlM (fun acc kv => overwrite acc kv.1 kv.2) items =
                .ok (setMany items ks values) := by
            rw [hzip, List.foldlM_map]
            exact foldlM_overwrite (ks.zip values) rfl
          rw [if_pos hlen, if_pos hlen, hfold]
          rfl
        · rw [if_neg hlen, if_neg hlen]
          rfl
  | _ => rfl

theorem changes_assign (value : Value) :
    Changes (assign value) fun last place => place.set value last where
  member members name last := rfl
  index items i last hv := by
    simp only [assign, indexPosition_eq i hv.length_lt]
    cases JsonKeys.indexPosition i items.length with
    | error f => rfl
    | ok k =>
      simp only [ofFault_ok, ok_bind, overwrite, if_pos k.isLt]
      rfl
  slice items s last hv := replaceSlice_eq hv s value last

theorem set_true {n : Nat} (flags : Fin n → Bool) (k : Fin n) :
    ((List.finRange n).map flags).set k true =
      (List.finRange n).map fun j => flags j || decide (j = k) := by
  apply List.ext_getElem
  · simp
  · intro j hj hj'
    rw [List.getElem_set]
    by_cases hjk : k.val = j
    · simp [hjk, Fin.ext_iff]
    · simp [hjk, Fin.ext_iff, Ne.symm hjk]

/-- The flags raised one by one are in the end those of the positions in the list. -/
theorem foldlM_raise {n : Nat} (ks : List (Fin n)) (flags : Fin n → Bool) :
    (ks.map Fin.val).foldlM (fun flags k => overwrite flags k true) ((List.finRange n).map flags) =
      .ok ((List.finRange n).map fun k => flags k || decide (k ∈ ks)) := by
  induction ks generalizing flags with
  | nil => simp; rfl
  | cons k ks ih =>
    have hlt : k.val < ((List.finRange n).map flags).length := by simp
    rw [List.map_cons, List.foldlM_cons, overwrite, if_pos hlt, ok_bind, set_true, ih]
    simp [Bool.or_assoc]

theorem sift_map {β : Type} (indexes : List β) (f : β → α) (raised : β → Bool) :
    sift (indexes.map f) (indexes.map raised) =
      .ok ((indexes.filter fun k => !raised k).map f) := by
  induction indexes with
  | nil => rfl
  | cons k indexes ih =>
    rw [List.map_cons, List.map_cons, sift, ih, ok_bind]
    cases hk : raised k <;> simp [hk] <;> rfl

theorem sift_raised (items : List Value) (ks : List (Fin items.length)) :
    (ks.map Fin.val).foldlM (fun flags k => overwrite flags k true)
      (List.replicate items.length false) >>= sift items = .ok (eraseMany items ks) := by
  have hdown : List.replicate items.length false =
      (List.finRange items.length).map fun _ => false := by simp
  have hitems : items = (List.finRange items.length).map items.get := by simp
  have hsift := sift_map (List.finRange items.length) items.get fun k => decide (k ∈ ks)
  rw [← hitems] at hsift
  rw [hdown, foldlM_raise, ok_bind, eraseMany_eq_pick]
  simpa [otherPositions, pick] using hsift

theorem changes_remove : Changes remove fun _ place => place.erase where
  member members name last := by
    cases hm : Members.get? members name <;> simp [remove, Place.erase, hm]
  index items i last hv := by
    simp only [remove, indexPosition_eq i hv.length_lt]
    cases JsonKeys.indexPosition i items.length with
    | error f => rfl
    | ok k =>
      simp only [ofFault_ok, ok_bind, takeOut, if_pos k.isLt]
      rfl
  slice items s last hv := by
    simp only [remove, Place.erase, positions_eq s hv.length_lt]
    cases s.positions items.length with
    | error f => rfl
    | ok ks =>
      simp only [ofFault_ok, ok_bind, ← bind_assoc, sift_raised]
      rfl

end Change

theorem tolerate_ofFault (strict : Bool) (v : Value) (result : Except Fault Value) :
    tolerate strict v (ofFault result) = ofFault (JsonKeys.tolerate strict v result) := by
  cases result with
  | ok w => rfl
  | error f =>
    show (if !strict && f.isMissingPlace then .ok v else fault f) =
      ofFault (if !strict && f.isMissingPlace then .ok v else .error f)
    split <;> rfl

/-- The run meets no trap. -/
def Trapless {α : Type} (run : Checked α) : Prop := ∀ t, run ≠ trap t

theorem trapless_ofFault {α : Type} (result : Except Fault α) : Trapless (ofFault result) := by
  intro t
  cases result <;> simp [ofFault, trap]

/-- Reading, setting and erasing meet no trap, whatever the path, its indexes and bounds, and the
value to be set. In words and with every step checked they come to what they come to in the
integers. -/
theorem access_trapless {v : Value} (hv : v.Short) (path : Path) (value : Value) (strict : Bool) :
    (Trapless (get v path) ∧ get v path = ofFault (v.get path)) ∧
    (Trapless (set v path value strict) ∧
      set v path value strict = ofFault (v.set path value strict)) ∧
    (Trapless (erase v path strict) ∧ erase v path strict = ofFault (v.erase path strict)) := by
  have hget : get v path = ofFault (v.get path) := get_eq hv path
  have hset : set v path value strict = ofFault (v.set path value strict) := by
    rw [set, (changes_assign value).edit_eq hv, tolerate_ofFault]
    rfl
  have herase : erase v path strict = ofFault (v.erase path strict) := by
    rw [erase, changes_remove.edit_eq hv, tolerate_ofFault]
    rfl
  rw [hget, hset, herase]
  exact ⟨⟨trapless_ofFault _, rfl⟩, ⟨trapless_ofFault _, rfl⟩, ⟨trapless_ofFault _, rfl⟩⟩

/-- A slice whose next position would be no word, with an index behind it, and an index that lies as
far out as can be. -/
theorem access_trapless_overrun :
    let path : Path :=
      [.name "rows", .slice ⟨some (-2), some Int64.maxValue, some Int64.maxValue⟩, .index (-1),
        .name "n"]
    let far : Path := [.name "rows", .index Int64.minValue]
    let v := Value.threeRows .null (.bool true) .null
    v.Short ∧ get v path = .ok (.bool true) ∧
      set v path (.bool false) true = .ok (Value.threeRows .null (.bool false) .null) ∧
      erase v far true = fault (.indexOutOfRange Int64.minValue 3) ∧ erase v far false = .ok v := by
  intro path far v
  have hv : v.Short := Value.short_of_nodeCount (by decide)
  obtain ⟨⟨-, hget⟩, ⟨-, hset⟩, -⟩ := access_trapless hv path (.bool false) true
  obtain ⟨-, -, -, hstrict⟩ := access_trapless hv far .null true
  obtain ⟨-, -, -, hlenient⟩ := access_trapless hv far .null false
  exact ⟨hv, hget, hset, hstrict, hlenient⟩

end Checked

end JsonKeys
