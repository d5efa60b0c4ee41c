import JsonKeys.Proofs.KeyExpr.Dotted
import JsonKeys.Proofs.Place.Agreement
import JsonKeys.Proofs.Place.Subscript

/-!
Paths read back from their text. Every segment comes back as a name, which leads where the segment
did: an array reads the name as the index or the slice again, and an object takes nothing but names.
-/
namespace JsonKeys

/-- The name that a segment is read back as. -/
def Segment.byName (segment : Segment) : Segment := .name segment.text

namespace Path

def byName (path : Path) : Path := path.map Segment.byName

/-- A path that can be told from its text: a backslash at the end of a name would hide the dot
behind it, and an empty name in front would leave no trace. -/
def Legible (path : Path) : Prop :=
  path ≠ [] ∧ (∀ name, .name name ∈ path.dropLast → ¬EndsInBackslash name) ∧
    (path.head? = some (.name "") → path = [.name ""])

theorem segmentText_eq (segment : Segment) : segmentText segment = escapeDots segment.text := by
  have hdots : ∀ {segment : Segment}, (∀ name, segment ≠ .name name) →
      '.' ∉ segment.text.toList := by
    intro segment hname hdot
    have hclass := Segment.class_of_mem_text hname hdot
    revert hclass
    decide
  cases segment with
  | name text => rfl
  | index i => exact (escapeDots_eq_self (hdots (Segment.index_ne_name i))).symm
  | slice s => exact (escapeDots_eq_self (hdots (Segment.slice_ne_name s))).symm

/-- A segment that is no name has no backslash in its text. -/
theorem not_endsInBackslash_text {segment : Segment} (h : ∀ name, segment ≠ .name name) :
    ¬EndsInBackslash segment.text := by
  intro hlast
  have hclass := Segment.class_of_mem_text h (List.mem_of_getLast? hlast)
  revert hclass
  decide

theorem byName_eq_ofNames (path : Path) : path.byName = ofNames (path.map Segment.text) := by
  simp [byName, ofNames, Segment.byName]

theorem text_byName (path : Path) : path.byName.text = path.text := by
  have hsegment : ∀ segment, segmentText (Segment.byName segment) = segmentText segment :=
    fun segment => (segmentText_eq segment).symm
  simp [text, byName, Function.comp_def, hsegment]

theorem Legible.sayable {path : Path} (h : path.Legible) :
    KeyExpr.Sayable (path.map Segment.text) := by
  obtain ⟨hne, hback, hfirst⟩ := h
  refine ⟨by simpa using hne, ?_, ?_⟩
  · intro name hname
    rw [← List.map_dropLast] at hname
    obtain ⟨segment, hsegment, rfl⟩ := List.mem_map.mp hname
    cases segment with
    | name text => exact hback text hsegment
    | index i => exact not_endsInBackslash_text (Segment.index_ne_name i)
    | slice s => exact not_endsInBackslash_text (Segment.slice_ne_name s)
  · intro hempty
    rw [List.head?_map] at hempty
    obtain ⟨segment, hhead, htext⟩ := Option.map_eq_some_iff.mp hempty
    have hnil : segment.text.toList = [] := by rw [htext]; rfl
    cases segment with
    | name text =>
      obtain rfl : text = "" := htext
      rw [hfirst hhead]
      rfl
    | index i => exact absurd hnil (Segment.toList_text_ne_nil (Segment.index_ne_name i))
    | slice s => exact absurd hnil (Segment.toList_text_ne_nil (Segment.slice_ne_name s))

/-- A legible path is read back from its text by the names of its segments. -/
theorem Legible.ofText_text {path : Path} (h : path.Legible) : ofText path.text = path.byName := by
  rw [← text_byName, byName_eq_ofNames, h.sayable.ofText_text]

end Path

namespace Segment

/-- By its name a segment addresses the same place. -/
theorem place_byName {segment : Segment} {v : Value} {place : Place}
    (h : segment.place v = .ok place) :
    segment.byName.place v = .ok place := by
  cases v with
  | object members =>
    cases segment with
    | name text => exact h
    | index i => cases h
    | slice s => cases h
  | array items =>
    unfold Segment.place at h ⊢
    rw [byName, subscript?_text]
    exact h
  | _ => cases h

end Segment

theorem elementOf_byName {s : Slice} {next : Segment} {items : List Value} {k : Fin items.length}
    (h : elementOf s next items = .ok k) : elementOf s next.byName items = .ok k := by
  rw [elementOf_eq_ok_iff] at h ⊢
  rw [Segment.byName, Segment.subscript?_text]
  exact h

theorem Locates.byName {path : Path} {v : Value} {t : Target} (h : Locates path v t) :
    Locates path.byName v { t with segment := t.segment.byName } := by
  induction h with
  | last h => exact .last (Segment.place_byName h)
  | folded h hk => exact .folded (Segment.place_byName h) (elementOf_byName hk)
  | member h hc _ ih => exact .member (Segment.place_byName h) hc ih
  | element h _ ih => exact .element (Segment.place_byName h) ih
  | through h hk _ ih => exact .through (Segment.place_byName h) (elementOf_byName hk) ih

/-- The segment has a part only in what is said of a failure. -/
theorem Place.set_of_segment {place : Place} {value w : Value} {segment : Segment}
    (h : place.set value segment = .ok w) (other : Segment) : place.set value other = .ok w := by
  cases place with
  | member members name => exact h
  | element items k => exact h
  | slice items s =>
    cases value with
    | array values =>
      simp only [Place.set, replaceSlice] at h ⊢
      cases hspan : s.span? items.length with
      | some span =>
        rw [hspan] at h
        exact h
      | none =>
        simp only [hspan] at h
        obtain ⟨ks, hks, h⟩ := bind_eq_ok_iff.mp h
        simp only [hks, ok_bind]
        split at h
        · next hlen => rw [if_pos hlen, h]
        · cases h
    | _ => cases h

namespace Value

theorem get_byName {v w : Value} {path : Path} (h : v.get path = .ok w) :
    v.get path.byName = .ok w := by
  induction path generalizing v with
  | nil => exact h
  | cons segment path ih =>
    rw [get_cons] at h
    obtain ⟨u, hu, hw⟩ := bind_eq_ok_iff.mp h
    obtain ⟨place, hplace, hu⟩ := bind_eq_ok_iff.mp hu
    show v.get (segment.byName :: Path.byName path) = .ok w
    rw [get_cons, follow, Segment.place_byName hplace, ok_bind, hu, ok_bind]
    exact ih hw

theorem set_byName {v w value : Value} {path : Path} (h : v.set path value true = .ok w) :
    v.set path.byName value true = .ok w := by
  rw [set_eq_locate] at h ⊢
  obtain ⟨t, ht, h⟩ := bind_eq_ok_iff.mp h
  obtain ⟨new, hnew, h⟩ := bind_eq_ok_iff.mp h
  rw [(locates_of_locate_eq ht).byName.locate_eq, ok_bind, Place.set_of_segment hnew, ok_bind]
  exact h

theorem erase_byName {v w : Value} {path : Path} (h : v.erase path true = .ok w) :
    v.erase path.byName true = .ok w := by
  rw [erase_eq_locate] at h ⊢
  obtain ⟨t, ht, h⟩ := bind_eq_ok_iff.mp h
  rw [(locates_of_locate_eq ht).byName.locate_eq, ok_bind]
  exact h

/-- Where a legible path leads, for reading, setting or erasing, the path leads too that is read
back from its text. -/
theorem get_set_erase_ofText_text {path : Path} (h : path.Legible) (v : Value) :
    (∀ w, v.get path = .ok w → v.get (Path.ofText path.text) = .ok w) ∧
    (∀ value w, v.set path value true = .ok w → v.set (Path.ofText path.text) value true = .ok w) ∧
    ∀ w, v.erase path true = .ok w → v.erase (Path.ofText path.text) true = .ok w := by
  rw [h.ofText_text]
  exact ⟨fun _ => get_byName, fun _ _ => set_byName, fun _ => erase_byName⟩

theorem get_set_erase_ofText_text_dotted :
    let path : Path := [.name "a.b", .slice ⟨some 1, none, some 2⟩, .index (-1), .name "1:2"]
    let read : Path := [.name "a.b", .name "1::2", .name "-1", .name "1:2"]
    let v : Value := .object [("a.b", .array [null, null, null, .object [("1:2", bool true)]])]
    let set : Value := .object [("a.b", .array [null, null, null, .object [("1:2", null)]])]
    let erased : Value := .object [("a.b", .array [null, null, null, .object []])]
    path.Legible ∧ Path.ofText path.text = read ∧
      (v.get path = .ok (bool true) ∧ v.get (Path.ofText path.text) = .ok (bool true)) ∧
      (v.set path null true = .ok set ∧ v.set (Path.ofText path.text) null true = .ok set) ∧
      v.erase path true = .ok erased ∧ v.erase (Path.ofText path.text) true = .ok erased := by
  intro path read v set erased
  have hpath : path.Legible := by
    refine ⟨List.cons_ne_nil _ _, ?_, ?_⟩
    · intro name hname
      obtain rfl : name = "a.b" := by simpa [path] using hname
      unfold EndsInBackslash
      decide
    · intro hhead
      simp [path] at hhead
  have hget : v.get path = .ok (bool true) := rfl
  have hset : v.set path null true = .ok set := rfl
  have herase : v.erase path true = .ok erased := rfl
  obtain ⟨hg, hs, he⟩ := get_set_erase_ofText_text hpath v
  exact ⟨hpath, by decide +kernel, ⟨hget, hg _ hget⟩, ⟨hset, hs _ _ hset⟩, herase, he _ herase⟩

end Value

end JsonKeys
