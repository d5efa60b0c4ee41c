import JsonKeys.Query.Edits
import JsonKeys.Proofs.Outline.Walk
import JsonKeys.Proofs.Record.Reads
import JsonKeys.Proofs.Value.Distinct

/-!
The reads of an edit make one object. Its entries come from the paths that select something, or else
from the record's own members, and then from the paths with a default. A name stands where it comes
first, with the value it has last.
-/
namespace JsonKeys

namespace Members

variable {α : Type}

/-- The members are the entries with each name where it comes first and with the value it has
last. -/
structure Gathers (entries ms : Members α) : Prop where
  names_eq : names ms = (names entries).eraseDups
  mem_iff : ∀ name value, (name, value) ∈ ms ↔
    ∃ before after, entries = before ++ (name, value) :: after ∧ name ∉ names after

theorem names_putAll_nil (entries : Members α) :
    names (putAll [] entries) = (names entries).eraseDups := by
  induction entries using List.reverseRecOn with
  | nil => rfl
  | append_singleton entries m ih =>
    have hsnoc : putAll [] (entries ++ [m]) = (putAll [] entries).put m.1 m.2 := putAll_append ..
    have hmem : m.1 ∈ (names entries).eraseDups ↔ m.1 ∈ names entries := List.mem_eraseDups
    rw [hsnoc, names_put, ih, names_append, names_cons, names_nil, eraseDups_snoc]
    simp only [hmem]

theorem gathers_putAll (entries : Members α) : Gathers entries (putAll [] entries) where
  names_eq := names_putAll_nil entries
  mem_iff name value := by
    rw [← get?_eq_some_iff (nodup_putAll_nil entries)]
    constructor
    · intro hget
      have hmem : name ∈ names entries := by
        rw [← List.mem_eraseDups, ← names_putAll_nil]
        exact mem_names_iff.mpr ⟨value, mem_of_get? hget⟩
      obtain ⟨before, last, after, rfl, hlast⟩ := exists_last_of_mem_names hmem
      rw [get?_putAll_of_last [] before last hlast] at hget
      obtain rfl := Option.some.inj hget
      exact ⟨before, after, rfl, hlast⟩
    · rintro ⟨before, after, rfl, hlast⟩
      exact get?_putAll_of_last [] before value hlast

end Members

namespace Value

/-- The members of an object; nothing else has any. -/
def ownMembers : Value → Members Value
  | .object members => members
  | _ => []

theorem putAll_ownMembers {record : Value} (h : record.Distinct) :
    Members.putAll [] record.ownMembers = record.ownMembers := by
  apply Members.putAll_nil_left
  cases record with
  | object members => exact (distinct_object_iff.mp h).1
  | _ => exact List.nodup_nil

end Value

namespace Edits

/-- What the object of an edit's reads is made of: what the paths select, or else what the record
has, and then the paths with a default. -/
def entries (edits : Edits) (full : Bool) (record : Value) : Members Value :=
  (match edits.get with
    | some paths => record.selected paths full
    | none => record.ownMembers) ++ record.selectedOr edits.defaults full

variable {edits : Edits} {options : Options} {item : Nat} {record result : Value}
  {failure : Failure}

/-- Whatever is not an object has the found members in its place. -/
theorem putMembers_putAll_nil (record : Value) (found : Members Value) :
    putMembers record (Members.putAll [] found) = .object (record.ownMembers.putAll found) := by
  cases record with
  | object members => exact congrArg Value.object (Members.putAll_putAll_nil members found)
  | _ => rfl

/-- Without defaults there are still none of them to put. -/
theorem applyGet_of_get {paths : List Path} (hget : edits.get = some paths) :
    edits.applyGet options item record = do
      let found ← record.getAll paths options item
      let others ← record.getAllOr edits.defaults options.fullNames item
      return .object (found.putAll others) := by
  unfold applyGet
  rw [hget]
  cases hdefaults : edits.defaults with
  | nil => rfl
  | cons pair rest => rfl

theorem applyGet_of_defaults (hget : edits.get = none) (hdefaults : edits.defaults ≠ []) :
    edits.applyGet options item record = do
      let others ← record.getAllOr edits.defaults options.fullNames item
      return putMembers record others := by
  unfold applyGet
  rw [hget]
  simp only [List.isEmpty_iff, if_neg hdefaults]

theorem applyGet_of_nothing (hget : edits.get = none) (hdefaults : edits.defaults = []) :
    edits.applyGet options item record = .ok record := by
  simp [applyGet, hget, hdefaults]

/-- The get paths are read first, and the paths with a default when none of the others halts the
edit. -/
theorem applyGet_eq_error_iff : edits.applyGet options item record = .error failure ↔
    (∃ paths, edits.get = some paths ∧ record.getAll paths options item = .error failure) ∨
      (∀ paths, edits.get = some paths → ∀ path ∈ paths, record.Passes options path) ∧
        record.getAllOr edits.defaults options.fullNames item = .error failure := by
  cases hget : edits.get with
  | some paths =>
    rw [applyGet_of_get hget, bind_eq_error_iff]
    constructor
    · rintro (hfault | ⟨found, hall, hrest⟩)
      · exact .inl ⟨paths, rfl, hfault⟩
      · refine .inr ⟨?_, ?_⟩
        · rintro others ⟨⟩
          exact (Value.getAll_eq_ok_iff.mp hall).1
        · rcases bind_eq_error_iff.mp hrest with hdefaults | ⟨others, -, hput⟩
          · exact hdefaults
          · cases hput
    · rintro (⟨others, ⟨⟩, hfault⟩ | ⟨hpass, hdefaults⟩)
      · exact .inl hfault
      · refine .inr ⟨_, Value.getAll_eq_ok_iff.mpr ⟨hpass paths rfl, rfl⟩, ?_⟩
        exact bind_eq_error_iff.mpr (.inl hdefaults)
  | none =>
    have hnone : edits.applyGet options item record = .error failure ↔
        record.getAllOr edits.defaults options.fullNames item = .error failure := by
      by_cases hdefaults : edits.defaults = []
      · rw [applyGet_of_nothing hget hdefaults, hdefaults]
        exact ⟨nofun, nofun⟩
      · rw [applyGet_of_defaults hget hdefaults, bind_eq_error_iff]
        constructor
        · rintro (hfault | ⟨others, -, hput⟩)
          · exact hfault
          · cases hput
        · exact .inl
    simp [hnone]

/-- An edit that reads anything leaves an object, made of what it reads. -/
theorem applyGet_eq_ok {result : Value} (hd : record.Distinct)
    (hreads : edits.get ≠ none ∨ edits.defaults ≠ [])
    (h : edits.applyGet options item record = .ok result) :
    (∀ paths, edits.get = some paths → ∀ path ∈ paths, record.Passes options path) ∧
      (∀ pair ∈ edits.defaults, ∀ fault, record.get pair.1 = .error fault → fault.isMissingMember) ∧
      result = .object (Members.putAll [] (edits.entries options.fullNames record)) := by
  unfold entries
  rw [Members.putAll_append]
  cases hget : edits.get with
  | some paths =>
    rw [applyGet_of_get hget] at h
    obtain ⟨found, hall, h⟩ := bind_eq_ok_iff.mp h
    obtain ⟨others, hdefaults, h⟩ := bind_eq_ok_iff.mp h
    obtain ⟨hpass, rfl⟩ := Value.getAll_eq_ok_iff.mp hall
    obtain ⟨hmissing, rfl⟩ := Value.getAllOr_eq_ok_iff.mp hdefaults
    refine ⟨?_, hmissing, ?_⟩
    · rintro others ⟨⟩
      exact hpass
    · rw [← Members.putAll_putAll_nil]
      exact (Except.ok.inj h).symm
  | none =>
    have hdefaults : edits.defaults ≠ [] := hreads.resolve_left (not_not_intro hget)
    rw [applyGet_of_defaults hget hdefaults] at h
    obtain ⟨others, hdefaults, h⟩ := bind_eq_ok_iff.mp h
    obtain ⟨hmissing, rfl⟩ := Value.getAllOr_eq_ok_iff.mp hdefaults
    refine ⟨by simp, hmissing, ?_⟩
    rw [Value.putAll_ownMembers hd, ← putMembers_putAll_nil]
    exact (Except.ok.inj h).symm

/-- The reads of an edit come to one object, in which a name stands where it comes first among what
is read and has the value it has last; the edit halts at the first read that fails. -/
theorem applyGet_gathers (hd : record.Distinct) :
    (∀ result, edits.applyGet options item record = .ok result →
      (∀ paths, edits.get = some paths → ∀ path ∈ paths, record.Passes options path) ∧
      (∀ pair ∈ edits.defaults, ∀ fault, record.get pair.1 = .error fault → fault.isMissingMember) ∧
      (edits.get ≠ none ∨ edits.defaults ≠ [] →
        ∃ ms, result = .object ms ∧ (edits.entries options.fullNames record).Gathers ms) ∧
      (edits.get = none ∧ edits.defaults = [] → result = record)) ∧
    ∀ failure, edits.applyGet options item record = .error failure ↔
      (∃ paths path fault, edits.get = some paths ∧
        record.FirstFails (fun fault => options.lenient ∧ fault.isMissingMember) paths path fault ∧
        failure = .fault fault (some ⟨.get, item, path, paths, record⟩)) ∨
      (∀ paths, edits.get = some paths → ∀ path ∈ paths, record.Passes options path) ∧
        ∃ path fault,
          record.FirstFails (fun fault => fault.isMissingMember)
            (edits.defaults.map Prod.fst) path fault ∧
          failure = .fault fault
            (some ⟨.getDefaults, item, path, edits.defaults.map Prod.fst, record⟩) := by
  refine ⟨?_, ?_⟩
  · intro result h
    by_cases hreads : edits.get ≠ none ∨ edits.defaults ≠ []
    · obtain ⟨hpass, hmissing, rfl⟩ := applyGet_eq_ok hd hreads h
      refine ⟨hpass, hmissing, fun _ => ⟨_, rfl, Members.gathers_putAll _⟩, ?_⟩
      rintro ⟨hget, hdefaults⟩
      exact absurd hreads (by simp [hget, hdefaults])
    · obtain ⟨hget, hdefaults⟩ : edits.get = none ∧ edits.defaults = [] := by simpa using hreads
      rw [applyGet_of_nothing hget hdefaults] at h
      exact ⟨by simp [hget], by simp [hdefaults], fun h => absurd h hreads,
        fun _ => (Except.ok.inj h).symm⟩
  · intro failure
    rw [applyGet_eq_error_iff, Value.getAllOr_eq_error_iff]
    simp only [Value.getAll_eq_error_iff]
    constructor
    · rintro (⟨paths, hget, path, fault, hfirst⟩ | h)
      · exact .inl ⟨paths, path, fault, hget, hfirst⟩
      · exact .inr h
    · rintro (⟨paths, path, fault, hget, hfirst⟩ | h)
      · exact .inl ⟨paths, hget, path, fault, hfirst⟩
      · exact .inr h

theorem applyGet_gathers_colliding :
    let record : Value :=
      .object [("x", .object [("a", .null), ("b", .bool true)]), ("a", .string "own")]
    let edits : Edits :=
      { get := some [[.name "x", .name "a"], [.name "gone"], [.name "a"]]
        defaults := [([.name "x", .name "b"], .null), ([.name "y", .name "a"], .bool false)]
        set := [], del := none }
    record.Distinct ∧
      edits.entries false record =
        [("a", .null), ("a", .string "own"), ("b", .bool true), ("a", .bool false)] ∧
      ∃ ms, edits.applyGet { lenient := true } 1 record = .ok (.object ms) ∧
        ms = [("a", .bool false), ("b", .bool true)] ∧ (edits.entries false record).Gathers ms := by
  intro record edits
  have hd : record.Distinct := by simp [record, Value.Distinct, Value.MembersDistinct]
  have hrun : edits.applyGet { lenient := true } 1 record =
      .ok (.object [("a", .bool false), ("b", .bool true)]) :=
    rfl
  obtain ⟨-, -, hgathers, -⟩ := (applyGet_gathers hd).1 _ hrun
  obtain ⟨ms, hms, hgathers⟩ := hgathers (.inl (Option.some_ne_none _))
  obtain rfl := Value.object.inj hms
  exact ⟨hd, rfl, _, hrun, rfl, hgathers⟩

end Edits

end JsonKeys
