import JsonKeys.Proofs.Outline.Deep
import JsonKeys.Proofs.Record.Flat
import Mathlib.Data.List.Sort
import Mathlib.Data.String.Basic

/-!
Flattening along the deep outline. A deep outline of an object has more keys than the plain one, but
each of the others passes a wildcard, and such keys put nothing into a flat record.
-/
namespace JsonKeys

theorem outline_scalar {v : Value} (hobject : v.kind ≠ .object) (harray : v.kind ≠ .array)
    (deep : Bool) : outline v deep = [] := by
  cases v with
  | object members => exact absurd rfl hobject
  | array items => exact absurd rfl harray
  | _ => simp [outline, recordRoots, visits, Node.children, pathsOf]

section

variable {members : Members Value} (hd : (Value.object members).Distinct)
  (hplain : (Value.object members).PlainFields)

include hd hplain

/-- A key through objects alone is found by every walk. -/
theorem mem_outline_deep_iff {key : String} (hwild : (Path.ofText key).throughWildcard = false) :
    key ∈ outline (.object members) true ↔ key ∈ outline (.object members) false := by
  constructor
  · intro hkey
    obtain ⟨names, v, hv, hne, -, rfl, -⟩ :=
      exists_fieldAt?_of_mem_outline hd hplain hkey hwild
    exact (mem_outline_of_fieldAt? (hplain.plain_of_fieldAt? hv).readable hne hv).1
  · exact fun hkey => pathsOf_subset visits_subset_deep hkey

/-- Without the keys through a wildcard the two outlines are one. -/
theorem filter_outline_deep :
    (outline (.object members) true).filter (fun key => !(Path.ofText key).throughWildcard) =
      (outline (.object members) false).filter fun key => !(Path.ofText key).throughWildcard := by
  have hdeep := (pairwise_pathsOf (visits true (recordRoots (.object members)) [])).filter
    fun key => !(Path.ofText key).throughWildcard
  have hfirst := (pairwise_pathsOf (visits false (recordRoots (.object members)) [])).filter
    fun key => !(Path.ofText key).throughWildcard
  apply hdeep.eq_of_mem_iff hfirst
  intro key
  rw [← outline, ← outline, List.mem_filter, List.mem_filter, Bool.not_eq_true']
  exact and_congr_left fun hwild => mem_outline_deep_iff hd hplain hwild

end

namespace Flat

/-- What is put for the keys that pass no wildcard. -/
def keyMembers (record : Value) (deep : Bool) : Members Value :=
  ((outlinePaths record deep).filter fun path => !path.throughWildcard).filterMap
    (pathMember? record)

section

variable {members : Members Value} (hd : (Value.object members).Distinct)
  (hplain : (Value.object members).PlainFields)

include hd hplain

theorem keyMembers_deep :
    keyMembers (.object members) true = keyMembers (.object members) false := by
  have hfilter : ∀ deep,
      (outlinePaths (.object members) deep).filter (fun path => !path.throughWildcard) =
        ((outline (.object members) deep).filter fun key =>
          !(Path.ofText key).throughWildcard).map Path.ofText := by
    intro deep
    rw [outlinePaths, List.filter_map]
    rfl
  rw [keyMembers, keyMembers, hfilter, hfilter, filter_outline_deep hd hplain]

/-- Every key that passes no wildcard leads to a value, however deep the walk. -/
theorem ofPaths_outlinePaths (deep : Bool) (item : Nat) :
    ofPaths (.object members) (outlinePaths (.object members) deep) item =
      .ok (Members.putAll [] (keyMembers (.object members) deep)) := by
  apply addAll_eq_ok_iff.mpr
  refine ⟨?_, rfl⟩
  intro path hpath hwild
  obtain ⟨key, hkey, rfl⟩ := List.mem_map.mp hpath
  exact exists_get_of_mem_outline hd hplain hkey hwild

end

end Flat

namespace Value

/-- The record is flattened to the same members in the same order along its plain and its deep
outline. -/
def FlattensAlike (record : Value) : Prop :=
  ∀ item, ∃ flat, Flat.ofPaths record (Flat.outlinePaths record true) item = .ok flat ∧
    Flat.ofPaths record (Flat.outlinePaths record false) item = .ok flat

theorem flattensAlike {record : Value} (hkind : record.kind ≠ .array) (hd : record.Distinct)
    (hplain : record.PlainFields) : record.FlattensAlike := by
  intro item
  by_cases hobject : record.kind = .object
  · obtain ⟨members, rfl⟩ : ∃ members, record = .object members := by
      cases record with
      | object members => exact ⟨members, rfl⟩
      | _ => cases hobject
    refine ⟨_, Flat.ofPaths_outlinePaths hd hplain true item, ?_⟩
    rw [Flat.ofPaths_outlinePaths hd hplain false item, Flat.keyMembers_deep hd hplain]
  · refine ⟨[], ?_, ?_⟩ <;> rw [Flat.outlinePaths, outline_scalar hobject hkind] <;> rfl

end Value

end JsonKeys
