import JsonKeys.Record.Edits
import JsonKeys.Proofs.Failure
import JsonKeys.Proofs.Value.Members
import Mathlib.Data.List.Basic

/-!
Reading a record at a list of paths. No read depends on another one, so that all of them succeed
together or the first one that fails is reported.
-/
namespace JsonKeys

namespace Value

/-- Getting the path does not halt: there is a value, or a missing member that is passed over. -/
def Passes (record : Value) (options : Options) (path : Path) : Prop :=
  ∀ fault, record.get path = .error fault → options.lenient ∧ fault.isMissingMember

/-- Of the paths this is the first to meet a fault that is not passed over. -/
def FirstFails (record : Value) (passed : Fault → Prop) (paths : List Path) (path : Path)
    (fault : Fault) : Prop :=
  ∃ earlier later, paths = earlier ++ path :: later ∧
    (∀ other ∈ earlier, ∀ before, record.get other = .error before → passed before) ∧
    record.get path = .error fault ∧ ¬passed fault

/-- The values at the paths that select one, by output name. -/
def selected (record : Value) (paths : List Path) (full : Bool) : Members Value :=
  paths.filterMap fun path => (record.get path).toOption.map (path.outputName full, ·)

/-- The values at the paths, or their defaults where nothing is selected, by output name. -/
def selectedOr (record : Value) (defaults : List (Path × Value)) (full : Bool) : Members Value :=
  defaults.map fun pair => (pair.1.outputName full, (record.get pair.1).toOption.getD pair.2)

/-- A default stands in for a missing member, and for nothing else. -/
theorem getOr_eq (record : Value) (path : Path) (default : Value) : record.getOr path default =
    match record.get path with
    | .ok v => .ok v
    | .error fault => if fault.isMissingMember then .ok default else .error fault := by
  unfold getOr
  cases record.get path with
  | ok v => rfl
  | error fault => cases fault <;> rfl

theorem getOr_eq_ok_iff {record : Value} {path : Path} {default v : Value} :
    record.getOr path default = .ok v ↔
    (∀ fault, record.get path = .error fault → fault.isMissingMember) ∧
      v = (record.get path).toOption.getD default := by
  rw [getOr_eq]
  cases record.get path with
  | ok w =>
    simp only [reduceCtorEq, false_implies, implies_true, true_and, Except.ok.injEq]
    exact eq_comm
  | error fault =>
    by_cases hmissing : fault.isMissingMember
    · simp only [hmissing, if_true, Except.ok.injEq, Except.error.injEq, forall_eq', true_and]
      exact eq_comm
    · simp [hmissing]

theorem getOr_eq_error_iff {record : Value} {path : Path} {default : Value} {fault : Fault} :
    record.getOr path default = .error fault ↔
      record.get path = .error fault ∧ ¬fault.isMissingMember := by
  rw [getOr_eq]
  cases record.get path with
  | ok w => simp
  | error other =>
    by_cases hmissing : other.isMissingMember
    · simp only [hmissing, if_true, reduceCtorEq, Except.error.injEq, false_iff, not_and, not_not]
      rintro rfl
      exact hmissing
    · simp only [hmissing, Bool.false_eq_true, if_false, Except.error.injEq, iff_self_and]
      rintro rfl
      exact hmissing

section Step

variable (record : Value) (options : Options) (full : Bool) (item : Nat) (paths : List Path)
  (found : Members Value)

theorem getInto_eq_ok_iff (path : Path) (result : Members Value) :
    record.getInto paths options item found path = .ok result ↔ record.Passes options path ∧
      result = found.putAll
        ((record.get path).toOption.map (path.outputName options.fullNames, ·)).toList := by
  unfold getInto Passes
  cases record.get path with
  | ok v =>
    simp only [reduceCtorEq, false_implies, implies_true, true_and, Except.ok.injEq]
    exact eq_comm
  | error fault =>
    by_cases hpass : options.lenient ∧ fault.isMissingMember
    · have hall : ∀ other, (.error fault : Except Fault Value) = .error other →
          options.lenient ∧ other.isMissingMember := by
        rintro other ⟨⟩
        exact hpass
      simp only [Bool.and_eq_true, if_pos hpass, and_iff_right hall, Except.ok.injEq]
      exact eq_comm
    · simp [hpass]

theorem getInto_eq_error_iff (path : Path) (failure : Failure) :
    record.getInto paths options item found path = .error failure ↔
      ∃ fault, (record.get path = .error fault ∧ ¬(options.lenient ∧ fault.isMissingMember)) ∧
        failure = .fault fault (some ⟨.get, item, path, paths, record⟩) := by
  unfold getInto
  cases record.get path with
  | ok v => simp
  | error fault =>
    by_cases hpass : options.lenient ∧ fault.isMissingMember
    · simp [hpass]
    · simp only [Bool.and_eq_true, if_neg hpass, Except.error.injEq]
      constructor
      · rintro rfl
        exact ⟨fault, ⟨rfl, hpass⟩, rfl⟩
      · rintro ⟨other, ⟨rfl, -⟩, rfl⟩
        rfl

theorem getOrInto_eq_ok_iff (pair : Path × Value) (result : Members Value) :
    record.getOrInto paths full item found pair = .ok result ↔
      (∀ fault, record.get pair.1 = .error fault → fault.isMissingMember) ∧
        result =
          found.putAll [(pair.1.outputName full, (record.get pair.1).toOption.getD pair.2)] := by
  simp only [getOrInto, bind_eq_ok_iff, atOrigin_eq_ok_iff, getOr_eq_ok_iff]
  constructor
  · rintro ⟨v, ⟨hmissing, rfl⟩, hput⟩
    exact ⟨hmissing, (Except.ok.inj hput).symm⟩
  · rintro ⟨hmissing, rfl⟩
    exact ⟨_, ⟨hmissing, rfl⟩, rfl⟩

theorem getOrInto_eq_error_iff (pair : Path × Value) (failure : Failure) :
    record.getOrInto paths full item found pair = .error failure ↔
      ∃ fault, (record.get pair.1 = .error fault ∧ ¬fault.isMissingMember) ∧
        failure = .fault fault (some ⟨.getDefaults, item, pair.1, paths, record⟩) := by
  simp only [getOrInto, bind_eq_error_iff, atOrigin_eq_error_iff, getOr_eq_error_iff]
  constructor
  · rintro (h | ⟨v, -, hput⟩)
    · exact h
    · cases hput
  · exact .inl

end Step

variable {record : Value} {options : Options} {item : Nat} {failure : Failure}

theorem getAll_eq_ok_iff {paths : List Path} {found : Members Value} :
    record.getAll paths options item = .ok found ↔ (∀ path ∈ paths, record.Passes options path) ∧
      found = Members.putAll [] (record.selected paths options.fullNames) := by
  unfold getAll
  rw [foldlM_eq_ok_iff (record.getInto_eq_ok_iff options item paths), Members.foldl_putAll,
    selected, List.filterMap_eq_flatMap_toList]

theorem getAll_eq_error_iff {paths : List Path} :
    record.getAll paths options item = .error failure ↔
      ∃ path fault,
        record.FirstFails (fun fault => options.lenient ∧ fault.isMissingMember) paths path fault ∧
        failure = .fault fault (some ⟨.get, item, path, paths, record⟩) := by
  unfold getAll
  rw [foldlM_eq_error_iff (record.getInto_eq_ok_iff options item paths)
    (record.getInto_eq_error_iff options item paths)]
  constructor
  · rintro ⟨earlier, path, later, hpaths, hearlier, fault, hfault, rfl⟩
    exact ⟨path, fault, ⟨earlier, later, hpaths, hearlier, hfault⟩, rfl⟩
  · rintro ⟨path, fault, ⟨earlier, later, hpaths, hearlier, hfault⟩, rfl⟩
    exact ⟨earlier, path, later, hpaths, hearlier, fault, hfault, rfl⟩

theorem getAllOr_eq_ok_iff {defaults : List (Path × Value)} {full : Bool} {found : Members Value} :
    record.getAllOr defaults full item = .ok found ↔
      (∀ pair ∈ defaults, ∀ fault, record.get pair.1 = .error fault → fault.isMissingMember) ∧
        found = Members.putAll [] (record.selectedOr defaults full) := by
  unfold getAllOr
  rw [foldlM_eq_ok_iff (record.getOrInto_eq_ok_iff full item (defaults.map Prod.fst)),
    Members.foldl_putAll, selectedOr, List.map_eq_flatMap]

theorem getAllOr_eq_error_iff {defaults : List (Path × Value)} {full : Bool} :
    record.getAllOr defaults full item = .error failure ↔
      ∃ path fault,
        record.FirstFails (fun fault => fault.isMissingMember) (defaults.map Prod.fst) path fault ∧
        failure =
          .fault fault (some ⟨.getDefaults, item, path, defaults.map Prod.fst, record⟩) := by
  unfold getAllOr
  rw [foldlM_eq_error_iff (record.getOrInto_eq_ok_iff full item (defaults.map Prod.fst))
    (record.getOrInto_eq_error_iff full item (defaults.map Prod.fst))]
  constructor
  · rintro ⟨earlier, pair, later, rfl, hearlier, fault, hfault, rfl⟩
    refine ⟨pair.1, fault, ⟨earlier.map Prod.fst, later.map Prod.fst, by simp, ?_, hfault⟩, rfl⟩
    rw [List.forall_mem_map]
    exact hearlier
  · rintro ⟨path, fault, ⟨earlier, later, hpaths, hearlier, hfault⟩, rfl⟩
    obtain ⟨before, rest, rfl, rfl, hrest⟩ := List.map_eq_append_iff.mp hpaths
    obtain ⟨pair, after, rfl, rfl, rfl⟩ := List.map_eq_cons_iff.mp hrest
    rw [List.forall_mem_map] at hearlier
    exact ⟨before, pair, after, rfl, hearlier, fault, hfault, rfl⟩

end Value

end JsonKeys
