import JsonKeys.Proofs.Outline.Levels
import JsonKeys.Proofs.Outline.Walk
import JsonKeys.Proofs.Profile.Extent
import JsonKeys.Proofs.Profile.Grouping

/-!
Summaries of the values under a path. There is one for each shape that comes up, in the order in
which they first do, and its extent has the least and the greatest size of all values of the shape.
-/
namespace JsonKeys

/-- The shapes that are told apart in a profile. -/
inductive Shape where
  | null
  | bool (value : Bool)
  | object
  | array
  | text
  | number
deriving DecidableEq

def Value.shape : Value → Shape
  | .null => .null
  | .bool b => .bool b
  | .object _ => .object
  | .array _ => .array
  | .string _ => .text
  | .number _ => .number

namespace Summary

def shape : Summary → Shape
  | null => .null
  | bool b => .bool b
  | object _ => .object
  | array _ => .array
  | text _ => .text
  | number _ => .number

end Summary

namespace Value

/-- How many members, items or characters a value of the shape has. -/
def sizeAs? : Shape → Value → Option Nat
  | .object, .object members => some members.length
  | .array, .array items => some items.length
  | .text, .string s => some s.length
  | _, _ => none

def number? : Value → Option Number
  | .number n => some n
  | _ => none

theorem sizeAs?_of_ne {s : Shape} {v : Value} (h : v.shape ≠ s) : v.sizeAs? s = none := by
  cases v <;> cases s <;> first | rfl | exact absurd rfl h

theorem number?_of_ne {v : Value} (h : v.shape ≠ .number) : v.number? = none := by
  cases v <;> first | rfl | exact absurd rfl h

end Value

namespace Summary

/-- The extent is that of the values of the summary's shape: the least and the greatest number of
members, items or characters, or numbers of which no other is less or greater. -/
def Describes (values : List Value) : Summary → Prop
  | null => True
  | bool _ => True
  | object e => e.Encloses (values.filterMap (Value.sizeAs? .object))
  | array e => e.Encloses (values.filterMap (Value.sizeAs? .array))
  | text e => e.Encloses (values.filterMap (Value.sizeAs? .text))
  | number e => e.Spans Number.compare (values.filterMap Value.number?)

theorem shape_ofValue (v : Value) : (ofValue v).shape = v.shape := by
  cases v <;> rfl

theorem extend?_eq_none_iff {s : Summary} {v : Value} : s.extend? v = none ↔ s.shape ≠ v.shape := by
  cases s <;> cases v <;> simp [extend?, shape, Value.shape]

/-- A truth value has no size that could grow. -/
theorem eq_of_extend?_bool {b : Bool} {v : Value} {t : Summary}
    (h : (bool b).extend? v = some t) : t = bool b := by
  cases v <;> simp only [extend?, reduceCtorEq, Option.ite_none_right_eq_some] at h
  exact (Option.some.inj h.2).symm

theorem shape_of_extend? {s t : Summary} {v : Value} (h : s.extend? v = some t) :
    t.shape = s.shape := by
  cases s with
  | bool b => rw [eq_of_extend?_bool h]
  | null | object | array | text | number =>
    cases v <;> cases h
    rfl

theorem shape_eq_of_extend? {s t : Summary} {v : Value} (h : s.extend? v = some t) :
    s.shape = v.shape := by
  apply Decidable.byContradiction
  intro hne
  rw [extend?_eq_none_iff.mpr hne] at h
  cases h

theorem Describes.extend {s t : Summary} {v : Value} {values : List Value} (h : s.Describes values)
    (ht : s.extend? v = some t) : t.Describes (values ++ [v]) := by
  cases s with
  | null =>
    cases v <;> cases ht
    trivial
  | bool b =>
    rw [eq_of_extend?_bool ht]
    trivial
  | object e | array e | text e =>
    cases v <;> cases ht
    simpa [Describes, Value.sizeAs?] using Extent.Encloses.widen h _
  | number e =>
    cases v <;> cases ht
    simpa [Describes, Value.number?] using Extent.Spans.widen .number h _

/-- A value of another shape leaves a description as it was. -/
theorem Describes.append_of_ne {s : Summary} {v : Value} {values : List Value}
    (h : s.Describes values) (hshape : v.shape ≠ s.shape) : s.Describes (values ++ [v]) := by
  cases s with
  | null => trivial
  | bool => trivial
  | object e =>
    simpa [Describes, List.filterMap_cons, Value.sizeAs?_of_ne (s := .object) hshape] using h
  | array e =>
    simpa [Describes, List.filterMap_cons, Value.sizeAs?_of_ne (s := .array) hshape] using h
  | text e =>
    simpa [Describes, List.filterMap_cons, Value.sizeAs?_of_ne (s := .text) hshape] using h
  | number e => simpa [Describes, List.filterMap_cons, Value.number?_of_ne hshape] using h

/-- The first value of a shape is described by its own size. -/
theorem describes_ofValue {v : Value} {values : List Value} (h : v.shape ∉ values.map Value.shape) :
    (ofValue v).Describes (values ++ [v]) := by
  have hother : ∀ w ∈ values, w.shape ≠ v.shape := by
    intro w hw hshape
    exact h (List.mem_map.mpr ⟨w, hw, hshape⟩)
  have hsizes : values.filterMap (Value.sizeAs? v.shape) = [] :=
    List.filterMap_eq_nil_iff.mpr fun w hw => Value.sizeAs?_of_ne (hother w hw)
  cases v with
  | null => trivial
  | bool => trivial
  | number n =>
    have hnumbers : values.filterMap Value.number? = [] :=
      List.filterMap_eq_nil_iff.mpr fun w hw => Value.number?_of_ne (hother w hw)
    simpa [ofValue, Describes, hnumbers, Value.number?] using Extent.spans_single .number n
  | object | array | string =>
    simp only [Value.shape] at hsizes
    simpa [ofValue, Describes, hsizes, Value.sizeAs?] using Extent.encloses_single _

/-- Summaries for the shapes that come up, in the order in which they first do, that all describe
the values. -/
structure Summarize (summaries : List Summary) (values : List Value) : Prop where
  shapes : summaries.map shape = (values.map Value.shape).eraseDups
  describe : ∀ s ∈ summaries, s.Describes values

/-- A value is taken in by the only summary of its shape, and where there is none by a new one at
the end. -/
theorem shapes_extendAll (summaries : List Summary) (v : Value) :
    (extendAll summaries v).map shape =
      if v.shape ∈ summaries.map shape then summaries.map shape
      else summaries.map shape ++ [v.shape] := by
  induction summaries with
  | nil => simp [extendAll, shape_ofValue]
  | cons s ss ih =>
    unfold extendAll
    cases hs : s.extend? v with
    | some t => simp [shape_of_extend? hs, shape_eq_of_extend? hs]
    | none =>
      have hne := extend?_eq_none_iff.mp hs
      simp only [List.map_cons, ih, List.mem_cons, Ne.symm hne, false_or]
      split <;> rfl

/-- Every summary is one that was there before, of another shape than the value, or one that takes
the value in, or the value's own where there was none of its shape. -/
theorem mem_extendAll {summaries : List Summary} {v : Value} {t : Summary}
    (hdistinct : (summaries.map shape).Nodup) (ht : t ∈ extendAll summaries v) :
    (t ∈ summaries ∧ v.shape ≠ t.shape) ∨ (∃ s ∈ summaries, s.extend? v = some t) ∨
      t = ofValue v ∧ v.shape ∉ summaries.map shape := by
  induction summaries with
  | nil =>
    right
    right
    simpa [extendAll] using ht
  | cons s ss ih =>
    rw [List.map_cons, List.nodup_cons] at hdistinct
    unfold extendAll at ht
    cases hs : s.extend? v with
    | some s' =>
      simp only [hs] at ht
      rcases List.mem_cons.mp ht with rfl | ht
      · exact .inr (.inl ⟨s, by simp, hs⟩)
      · refine .inl ⟨by simp [ht], ?_⟩
        rw [← shape_eq_of_extend? hs]
        intro hshape
        exact hdistinct.1 (hshape ▸ List.mem_map_of_mem ht)
    | none =>
      have hne : v.shape ≠ s.shape := (extend?_eq_none_iff.mp hs).symm
      simp only [hs] at ht
      rcases List.mem_cons.mp ht with rfl | ht
      · exact .inl ⟨by simp, hne⟩
      · rcases ih hdistinct.2 ht with ⟨hmem, hshape⟩ | ⟨s', hmem, hs'⟩ | ⟨rfl, hnew⟩
        · exact .inl ⟨by simp [hmem], hshape⟩
        · exact .inr (.inl ⟨s', by simp [hmem], hs'⟩)
        · refine .inr (.inr ⟨rfl, ?_⟩)
          rw [List.map_cons, List.mem_cons, not_or]
          exact ⟨hne, hnew⟩

theorem Summarize.extendAll {summaries : List Summary} {values : List Value}
    (h : Summarize summaries values) (v : Value) :
    Summarize (extendAll summaries v) (values ++ [v]) where
  shapes := by
    have hmem : v.shape ∈ summaries.map shape ↔ v.shape ∈ values.map Value.shape := by
      rw [h.shapes, List.mem_eraseDups]
    rw [shapes_extendAll, List.map_append, List.map_singleton, eraseDups_snoc, ← h.shapes]
    simp only [hmem]
  describe := by
    have hdistinct : (summaries.map shape).Nodup := h.shapes ▸ nodup_eraseDups _
    intro t ht
    rcases mem_extendAll hdistinct ht with ⟨hmem, hshape⟩ | ⟨s, hmem, hs⟩ | ⟨rfl, hnew⟩
    · exact (h.describe t hmem).append_of_ne hshape
    · exact (h.describe s hmem).extend hs
    · rw [h.shapes, List.mem_eraseDups] at hnew
      exact describes_ofValue hnew

/-- Values that come in one after the other are summarized together with all that came before. -/
theorem Summarize.foldl_extendAll {summaries : List Summary} {before : List Value}
    (h : Summarize summaries before) (values : List Value) :
    Summarize (values.foldl Summary.extendAll summaries) (before ++ values) := by
  induction values generalizing summaries before with
  | nil => rwa [List.append_nil]
  | cons v vs ih =>
    rw [List.foldl_cons, List.append_cons]
    exact ih (h.extendAll v)

theorem summarize_nil : Summarize [] [] where
  shapes := rfl
  describe := fun _ hs => absurd hs List.not_mem_nil

theorem summarize_ofValues (values : List Value) : Summarize (ofValues values) values :=
  summarize_nil.foldl_extendAll values

end Summary

namespace Profile

/-- The values under a path are summarized in the order in which they come level by level, and from
left to right on each level. -/
theorem summarize_ofDocument {document : Value} {profile : Profile}
    (h : profile ∈ ofDocument document) :
    Summary.Summarize profile.kinds
      (occurrences (levelOrder (wildcardRoots document)) profile.path) := by
  rw [ofDocument_eq, visits_deep_eq_levelOrder] at h
  obtain ⟨path, -, rfl⟩ := List.mem_map.mp h
  exact Summary.summarize_ofValues _

/-- Two integers that are told apart by themselves, and a float that is told apart from neither. -/
def blurred : Value :=
  .array [.number (.integer 9007199254740993 (by decide)), .string "k1",
    .number (.float ⟨false, 1076 <<< 52, by decide⟩),
    .number (.integer 9007199254740992 (by decide)), .bool true, .string ""]

def blurredProfile : Profile :=
  ⟨"#", [.number ⟨.integer 9007199254740992 (by decide), .integer 9007199254740993 (by decide)⟩,
    .text ⟨0, 2⟩, .bool true]⟩

theorem summarize_ofDocument_blurred :
    blurredProfile ∈ ofDocument blurred ∧
      Summary.Summarize blurredProfile.kinds
        (occurrences (levelOrder (wildcardRoots blurred)) blurredProfile.path) := by
  have hmem : blurredProfile ∈ ofDocument blurred := by
    have hprofiles : ofDocument blurred = [blurredProfile] := by decide +kernel
    rw [hprofiles]
    exact List.mem_singleton_self _
  exact ⟨hmem, summarize_ofDocument hmem⟩

end Profile

end JsonKeys
