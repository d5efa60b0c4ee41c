import JsonKeys.Proofs.Value.Distinct
import JsonKeys.Proofs.Value.Frame
import JsonKeys.Proofs.Path.Slice
import JsonKeys.Proofs.Place.Agreement

/-!
Erasing takes out of one container what reading selects there, and nothing else: what is left keeps
its order, and the rest of the document stays.
-/
namespace JsonKeys

namespace Value

theorem Distinct.part? {v u : Value} (h : v.Distinct) {c : Coordinate} (hu : v.part? c = some u) :
    u.Distinct := by
  unfold Value.part? at hu
  split at hu
  · exact (distinct_object_iff.mp h).2 _ (Members.mem_of_get? hu)
  · exact distinct_array_iff.mp h _ (List.mem_of_getElem? hu)
  · cases hu

theorem Distinct.at? {v u : Value} (h : v.Distinct) {position : Position}
    (hu : v.at? position = some u) :
    u.Distinct := by
  induction position generalizing v with
  | nil =>
    cases hu
    exact h
  | cons c position ih =>
    obtain ⟨part, hpart, hu⟩ := Option.bind_eq_some_iff.mp hu
    exact ih (h.part? hpart) hu

end Value

/-- The positions that are not in the list, in order. -/
def otherPositions {n : Nat} (ks : List (Fin n)) : List (Fin n) := (List.finRange n).filter (· ∉ ks)

theorem pairwise_otherPositions {n : Nat} (ks : List (Fin n)) :
    (otherPositions ks).Pairwise (· < ·) :=
  (List.pairwise_lt_finRange n).filter _

/-- Positions and the others are all positions, each once. -/
theorem append_otherPositions_perm {n : Nat} {ks : List (Fin n)} (h : ks.Nodup) :
    (ks ++ otherPositions ks).Perm (List.finRange n) := by
  have hothers : (otherPositions ks).Nodup := (List.nodup_finRange n).filter _
  have happend : (ks ++ otherPositions ks).Nodup := by
    rw [List.nodup_append]
    refine ⟨h, hothers, ?_⟩
    intro k hk other hother heq
    have hnot : other ∉ ks := by simpa using (List.mem_filter.mp hother).2
    exact hnot (heq ▸ hk)
  rw [List.perm_ext_iff_of_nodup happend (List.nodup_finRange n)]
  intro k
  by_cases hk : k ∈ ks <;> simp [otherPositions, hk]

theorem eraseMany_eq_pick (items : List Value) (ks : List (Fin items.length)) :
    eraseMany items ks = pick items (otherPositions ks) := by
  have hnumbered : items.zipIdx = (List.finRange items.length).map fun k =>
      (items.get k, k.val) := by
    apply List.ext_getElem <;> simp
  have hother : ∀ k : Fin items.length, (!(ks.any fun j => j.val == k.val)) = decide (k ∉ ks) := by
    intro k
    have hany : (ks.any fun j => j.val == k.val) = decide (k ∈ ks) := by
      rw [Bool.eq_iff_iff]
      simp [← Fin.ext_iff]
    rw [hany, decide_not]
  unfold eraseMany otherPositions pick
  rw [hnumbered, List.filter_map, List.map_map]
  simp only [Function.comp_def, hother]

/-- A container taken apart: what its place holds, and the container without it. The items of a
slice and the ones that are left are together all items, each once. -/
inductive Place.Splits : Place → Value → Value → Prop
  | member {before after : Members Value} {name : String} {value : Value}
      (hbefore : name ∉ Members.names before) (hafter : name ∉ Members.names after) :
      Splits (.member (before ++ (name, value) :: after) name) value (.object (before ++ after))
  | element {items before after : List Value} {value : Value} {k : Fin items.length}
      (hitems : items = before ++ value :: after) (hk : k.val = before.length) :
      Splits (.element items k) value (.array (before ++ after))
  | slice {items : List Value} {s : Slice} {ks others : List (Fin items.length)}
      (hks : s.positions? items.length = some ks) (hothers : others.Pairwise (· < ·))
      (hall : (ks ++ others).Perm (List.finRange items.length)) :
      Splits (.slice items s) (.array (pick items ks)) (.array (pick items others))

/-- Erasing a place leaves the container without what the place is read as. -/
theorem Place.splits_of_erase {place : Place} {left : Value} (hd : place.container.Distinct)
    (h : place.erase = .ok left) :
    ∃ selected, place.get = .ok selected ∧ place.Splits selected left := by
  cases place with
  | member members name =>
    cases hget : members.get? name with
    | none => simp [erase, hget] at h
    | some value =>
      simp only [erase, hget, Except.ok.injEq] at h
      have hnames : (Members.names members).Nodup := (Value.distinct_object_iff.mp hd).1
      obtain ⟨before, after, hsplit, hbefore, hafter, herase⟩ :=
        Members.exists_split_of_get? hnames hget
      refine ⟨value, by simp only [Place.get, hget], ?_⟩
      rw [← h, herase, hsplit]
      exact .member hbefore hafter
  | element items k =>
    have hleft : .array (items.eraseIdx k) = left := Except.ok.inj h
    have hitems : items = items.take k ++ items.get k :: items.drop (k + 1) := by
      simp
    have herase : items.eraseIdx k = items.take k ++ items.drop (k + 1) :=
      List.eraseIdx_eq_take_drop_succ ..
    refine ⟨items.get k, rfl, ?_⟩
    rw [← hleft, herase]
    exact .element hitems (by simp)
  | slice items s =>
    obtain ⟨ks, hks, hleft⟩ := bind_eq_ok_iff.mp h
    have hleft : .array (eraseMany items ks) = left := Except.ok.inj hleft
    have hpositions := Slice.positions_eq_ok_iff.mp hks
    refine ⟨.array (pick items ks), ?_, ?_⟩
    · rw [Place.get, hks]
      rfl
    · rw [← hleft, eraseMany_eq_pick]
      exact .slice hpositions (pairwise_otherPositions ks)
        (append_otherPositions_perm (Slice.nodup_of_positions? hpositions))

/-- Erasing takes what is read at the path out of the container that the path ends in, and nothing
else out of the document. -/
theorem Value.exists_splits_of_erase {v w : Value} {path : Path} (hd : v.Distinct)
    (h : v.erase path true = .ok w) :
    ∃ t selected left, Locates path v t ∧ v.at? t.position = some t.place.container ∧
      v.get path = .ok selected ∧ t.place.Splits selected left ∧
      w.at? t.position = some left ∧ v.DiffersAt t.position w := by
  rw [erase_eq_locate] at h
  obtain ⟨t, ht, h⟩ := bind_eq_ok_iff.mp h
  obtain ⟨left, hleft, h⟩ := bind_eq_ok_iff.mp h
  obtain rfl : v.putAt t.position left = w := Except.ok.inj h
  have hl := locates_of_locate_eq ht
  have hat := hl.at?_eq
  obtain ⟨selected, hget, hsplits⟩ := Place.splits_of_erase (hd.at? hat) hleft
  refine ⟨t, selected, left, hl, hat, ?_, hsplits, at?_putAt_self hat left,
    differsAt_putAt hat left⟩
  rw [hl.get_eq, hget]

/-- Every other record is erased from the last on backwards. -/
theorem Value.exists_splits_of_erase_backwards :
    let s : Slice := ⟨none, none, some (-2)⟩
    let path : Path := [.name "rows", .slice s]
    let rows := [object [("n", null)], object [("n", bool true)], object [("n", bool false)]]
    let v := threeRows null (bool true) (bool false)
    let w : Value := .object [("rows", .array [.object [("n", bool true)]])]
    v.Distinct ∧ v.erase path true = .ok w ∧
      v.get path = .ok (.array [.object [("n", bool false)], .object [("n", null)]]) ∧
      (Place.slice rows s).Splits (.array [.object [("n", bool false)], .object [("n", null)]])
        (.array [.object [("n", bool true)]]) ∧ v.DiffersAt [.member "rows"] w := by
  intro s path rows v w
  have hd : v.Distinct := by
    simp [v, threeRows, Distinct, ItemsDistinct, MembersDistinct]
  have herase : v.erase path true = .ok w := rfl
  have htarget : locate path v = .ok ⟨[.member "rows"], .slice s, .slice rows s⟩ := rfl
  have hselected : v.get path = .ok (.array [.object [("n", bool false)], .object [("n", null)]]) :=
    rfl
  have hrest : w.at? [.member "rows"] = some (.array [.object [("n", bool true)]]) := rfl
  obtain ⟨t, selected, left, hl, -, hget, hsplits, hleft, hdiffers⟩ :=
    exists_splits_of_erase hd herase
  obtain rfl := Except.ok.inj (htarget.symm.trans hl.locate_eq)
  obtain rfl := Except.ok.inj (hselected.symm.trans hget)
  obtain rfl := Option.some.inj (hrest.symm.trans hleft)
  exact ⟨hd, herase, hselected, hsplits, hdiffers⟩

end JsonKeys
