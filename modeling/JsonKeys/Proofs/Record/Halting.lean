import JsonKeys.Query.Edits
import JsonKeys.Proofs.Record.Reads

/-!
Where the edits of a record halt. The origin of the failure has the operation that was at work, its
paths, the one among them that failed, and the record as the edits before it had left it.
-/
namespace JsonKeys

namespace Value

/-- The record with the values put at their paths, one after another. -/
def setEach (record : Value) (assignments : List (Path × Value)) (strict : Bool) :
    Except Fault Value :=
  assignments.foldlM (fun v pair => v.set pair.1 pair.2 strict) record

/-- The record without what the paths point to, one after another. -/
def eraseEach (record : Value) (paths : List Path) (strict : Bool) : Except Fault Value :=
  paths.foldlM (fun v path => v.erase path strict) record

end Value

/-- `edits.Halts options item record origin fault`: the edits of a record halt with the fault, of
which the origin tells the truth. -/
inductive Edits.Halts (edits : Edits) (options : Options) (item : Nat) (record : Value) :
    Origin → Fault → Prop
  | get {paths earlier later : List Path} {path : Path} {fault : Fault}
      (hget : edits.get = some paths) (hpaths : paths = earlier ++ path :: later)
      (hearlier : ∀ other ∈ earlier, record.Passes options other)
      (hfault : record.get path = .error fault)
      (hstands : ¬(options.lenient ∧ fault.isMissingMember)) :
      Halts edits options item record ⟨.get, item, path, paths, record⟩ fault
  | getDefaults {earlier later : List (Path × Value)} {path : Path} {default : Value}
      {fault : Fault}
      (hget : ∀ paths, edits.get = some paths → ∀ other ∈ paths, record.Passes options other)
      (hdefaults : edits.defaults = earlier ++ (path, default) :: later)
      (hearlier : ∀ other ∈ earlier, ∃ v, record.getOr other.1 other.2 = .ok v)
      (hfault : record.getOr path default = .error fault) :
      Halts edits options item record
        ⟨.getDefaults, item, path, edits.defaults.map Prod.fst, record⟩ fault
  | set {earlier later : List (Path × Value)} {path : Path} {value selected document : Value}
      {fault : Fault} (hget : edits.applyGet options item record = .ok selected)
      (hset : edits.set = earlier ++ (path, value) :: later)
      (hearlier : selected.setEach earlier (!options.lenient) = .ok document)
      (hfault : document.set path value (!options.lenient) = .error fault) :
      Halts edits options item record ⟨.set, item, path, edits.set.map Prod.fst, document⟩ fault
  | del {paths earlier later : List Path} {path : Path} {selected assigned document : Value}
      {fault : Fault} (hget : edits.applyGet options item record = .ok selected)
      (hset : edits.applySet options item selected = .ok assigned)
      (hdel : edits.del = some paths) (hpaths : paths = earlier ++ path :: later)
      (hearlier : assigned.eraseEach earlier (!options.lenient) = .ok document)
      (hfault : document.erase path (!options.lenient) = .error fault) :
      Halts edits options item record ⟨.del, item, path, paths, document⟩ fault

namespace Edits

variable {edits : Edits} {options : Options} {item : Nat} {record : Value} {failure : Failure}

theorem halts_of_getAllOr
    (hget : ∀ paths, edits.get = some paths → ∀ other ∈ paths, record.Passes options other)
    (h : record.getAllOr edits.defaults options.fullNames item = .error failure) :
    ∃ origin fault, failure = .fault fault (some origin) ∧
      edits.Halts options item record origin fault := by
  unfold Value.getAllOr at h
  rw [foldlM_eq_error_iff
    (record.getOrInto_eq_ok_iff options.fullNames item (edits.defaults.map Prod.fst))
    (record.getOrInto_eq_error_iff options.fullNames item (edits.defaults.map Prod.fst))] at h
  obtain ⟨earlier, ⟨path, default⟩, later, hdefaults, hearlier, fault, hfault, rfl⟩ := h
  have hstood : ∀ other ∈ earlier, ∃ v, record.getOr other.1 other.2 = .ok v := fun other hother =>
    ⟨_, Value.getOr_eq_ok_iff.mpr ⟨hearlier other hother, rfl⟩⟩
  exact ⟨_, fault, rfl, .getDefaults hget hdefaults hstood (Value.getOr_eq_error_iff.mpr hfault)⟩

theorem halts_of_applyGet (h : edits.applyGet options item record = .error failure) :
    ∃ origin fault, failure = .fault fault (some origin) ∧
      edits.Halts options item record origin fault := by
  unfold applyGet at h
  cases hget : edits.get with
  | none =>
    have hpass : ∀ paths, edits.get = some paths → ∀ other ∈ paths,
        record.Passes options other := by
      simp [hget]
    simp only [hget] at h
    split at h
    · cases h
    · rcases bind_eq_error_iff.mp h with hdefaults | ⟨found, -, hput⟩
      · exact halts_of_getAllOr hpass hdefaults
      · cases hput
  | some paths =>
    simp only [hget] at h
    rcases bind_eq_error_iff.mp h with hall | ⟨found, hall, hrest⟩
    · obtain ⟨path, fault, ⟨earlier, later, hpaths, hearlier, hfault, hstands⟩, rfl⟩ :=
        Value.getAll_eq_error_iff.mp hall
      exact ⟨_, fault, rfl, .get hget hpaths hearlier hfault hstands⟩
    · have hpass : ∀ others, edits.get = some others →
          ∀ other ∈ others, record.Passes options other := by
        intro others hothers
        obtain rfl := Option.some.inj (hget.symm.trans hothers)
        exact (Value.getAll_eq_ok_iff.mp hall).1
      split at hrest
      · cases hrest
      · rcases bind_eq_error_iff.mp hrest with hdefaults | ⟨others, -, hput⟩
        · exact halts_of_getAllOr hpass hdefaults
        · cases hput

theorem halts_of_applySet {selected : Value}
    (hget : edits.applyGet options item record = .ok selected)
    (h : edits.applySet options item selected = .error failure) :
    ∃ origin fault, failure = .fault fault (some origin) ∧
      edits.Halts options item record origin fault := by
  obtain ⟨earlier, ⟨path, value⟩, later, document, fault, hset, hearlier, hfault, rfl⟩ :=
    foldlM_atOrigin_eq_error h
  exact ⟨_, fault, rfl, .set hget hset hearlier hfault⟩

theorem halts_of_applyDel {selected assigned : Value}
    (hget : edits.applyGet options item record = .ok selected)
    (hset : edits.applySet options item selected = .ok assigned)
    (h : edits.applyDel options item assigned = .error failure) :
    ∃ origin fault, failure = .fault fault (some origin) ∧
      edits.Halts options item record origin fault := by
  unfold applyDel at h
  cases hdel : edits.del with
  | none =>
    rw [hdel] at h
    cases h
  | some paths =>
    rw [hdel, Option.getD_some] at h
    obtain ⟨earlier, path, later, document, fault, hpaths, hearlier, hfault, rfl⟩ :=
      foldlM_atOrigin_eq_error h
    exact ⟨_, fault, rfl, .del hget hset hdel hpaths hearlier hfault⟩

/-- A record whose edits fail halts in one of the four operations. -/
theorem halts_of_apply (h : edits.apply options item record = .error failure) :
    ∃ origin fault, failure = .fault fault (some origin) ∧
      edits.Halts options item record origin fault := by
  rcases bind_eq_error_iff.mp h with hget | ⟨selected, hget, hrest⟩
  · exact halts_of_applyGet hget
  · rcases bind_eq_error_iff.mp hrest with hset | ⟨assigned, hset, hdel⟩
    · exact halts_of_applySet hget hset
    · exact halts_of_applyDel hget hset hdel

end Edits

end JsonKeys
