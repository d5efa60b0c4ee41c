import JsonKeys.Proofs.Query.Halting
import JsonKeys.Proofs.Record.Lenient

/-!
Queries that pass over missing keys. Passing over them takes failures away and changes no answer;
and as long as a query only edits and shows a document, no missing key is left to fail at, but for
the elements of arrays that it gets.
-/
namespace JsonKeys

theorem Fault.isMissingMember_of_name {fault : Fault} (h : fault.name = "KeyNotFound") :
    fault.isMissingMember = true := by
  cases fault with
  | missingMember name => rfl
  | indexOutOfRange | kindMismatch => simp [name] at h

theorem Fault.isMissingPlace_of_name {fault : Fault} (h : fault.name = "IndexOutOfRange") :
    fault.isMissingPlace = true := by
  cases fault with
  | indexOutOfRange index length => rfl
  | missingMember | kindMismatch => simp [name] at h

namespace Query

variable (query : Query) (options : Options)

/-- How documents are shown has nothing to do with missing keys. -/
theorem present_lenient (document : Value) (form : Form) (lenient : Bool) :
    present document form { options with lenient := lenient } = present document form options := rfl

theorem resolve_lenient (document : Value) (lenient : Bool) :
    query.resolve document { options with lenient := lenient } =
      query.resolve document options := rfl

theorem rooted_lenient (document : Value) (lenient : Bool) :
    query.rooted document { options with lenient := lenient } = query.rooted document options := rfl

theorem keptBy_edit (document : Value) :
    KeptBy (query.edit document { options with lenient := false }).result
      (query.edit document { options with lenient := true }).result := by
  simp only [result_edit_eq, resolve_lenient]
  refine (KeptBy.refl _).bind fun edits => ?_
  exact (KeptBy.traverse (edits.keptBy_apply options) _).bind fun edited => .refl _

theorem keptBy_answerFrom (root : Value) :
    KeptBy (query.answerFrom { options with lenient := false } root)
      (query.answerFrom { options with lenient := true } root) := by
  simp only [answerFrom, present_lenient]
  refine KeptBy.bind ?_ fun document => .refl _
  split
  · exact query.keptBy_edit options root
  · exact .refl _

theorem keptBy_answer (document : Value) :
    KeptBy (query.answer document { options with lenient := false }).result
      (query.answer document { options with lenient := true }).result := by
  simp only [result_answer_eq, rooted_lenient]
  exact (KeptBy.refl _).bind (query.keptBy_answerFrom options)

/-- Edits that pass over missing keys fail at none that they set or delete, nor at a missing
member. -/
theorem name_of_edit_lenient {root : Value} {failure : Failure}
    (h : (query.edit root { options with lenient := true }).result = .error failure) :
    failure.name ≠ "KeyNotFound" ∧
      (failure.name = "IndexOutOfRange" → ∃ origin, failure.origin = some origin ∧
        (origin.operation = .get ∨ origin.operation = .getDefaults)) := by
  cases failure with
  | unlisted token => simp [Failure.name]
  | fault fault origin =>
    obtain ⟨edits, before, record, after, origin, fault, -, -, -, hfailure, hhalts⟩ :=
      edit_halts h nofun
    obtain ⟨rfl, rfl⟩ := Failure.fault.inj hfailure
    obtain ⟨hmember, hplace⟩ := hhalts.of_lenient rfl
    constructor
    · intro hname
      rw [Fault.isMissingMember_of_name hname] at hmember
      cases hmember
    · intro hname
      exact ⟨origin, rfl, hplace (Fault.isMissingPlace_of_name hname)⟩

/-- Nothing can go wrong in showing a document where no keys are looked up in it. -/
theorem exists_present {form : Form} (h : form ∈ [.document, .keys, .profiles, .lengths])
    (document : Value) : ∃ answer, (present document form options).result = .ok answer := by
  simp only [List.mem_cons, List.not_mem_nil, or_false] at h
  rcases h with rfl | rfl | rfl | rfl <;> exact ⟨_, rfl⟩

/-- A query that fails in showing nothing and has no root to find can fail in its edits alone. -/
theorem edit_eq_error_of_answer {document : Value} {failure : Failure} (hroot : query.root = none)
    (hform : query.form ∈ [.document, .keys, .profiles, .lengths])
    (h : (query.answer document options).result = .error failure) :
    (query.edit document options).result = .error failure := by
  have hrooted : (query.rooted document options).result = .ok document := by
    rw [rooted, hroot]
    rfl
  rw [result_answer_eq, hrooted, ok_bind, answerFrom] at h
  rcases bind_eq_error_iff.mp h with hedit | ⟨edited, -, hshown⟩
  · split at hedit
    · exact hedit
    · cases hedit
  · obtain ⟨answer, hanswer⟩ := exists_present options hform edited
    rw [hanswer] at hshown
    cases hshown

/-- What a query answers, it answers as well if it passes over missing keys. If it does, and only
edits and shows the document, then it never fails because of a missing member, and because of an
index out of range only in getting values, with defaults or without. -/
theorem answer_lenient (query : Query) (document : Value) (options : Options) :
    (∀ answer, (query.answer document { options with lenient := false }).result = .ok answer →
      (query.answer document { options with lenient := true }).result = .ok answer) ∧
    (query.root = none → query.form ∈ [.document, .keys, .profiles, .lengths] → ∀ failure,
      (query.answer document { options with lenient := true }).result = .error failure →
        failure.name ≠ "KeyNotFound" ∧
        (failure.name = "IndexOutOfRange" → ∃ origin, failure.origin = some origin ∧
          (origin.operation = .get ∨ origin.operation = .getDefaults))) := by
  refine ⟨query.keptBy_answer options document, ?_⟩
  intro hroot hform failure hfail
  exact query.name_of_edit_lenient options (query.edit_eq_error_of_answer _ hroot hform hfail)

/-- An element is got, and has no default if only the index is out of range, and one is deleted. -/
def pruning : Query where
  get := some "a, k1"
  defaults := [("k1.1", "null")]
  del := some "k1.2"

def threeItems : Value := .object [("a", .null), ("k1", .array [.bool true, .bool false, .null])]

def pruned : Value :=
  .object [("a", .null), ("k1", .array [.bool true, .bool false]), ("1", .bool false)]

def oneItem : Value := .object [("k1", .array [.bool true])]

example :
    (pruning.answer (.object [("k1", .array [.bool true, .bool false])])
      { lenient := true }).result =
      .ok (.document (.object [("k1", .array [.bool true, .bool false]), ("1", .bool false)])) :=
  rfl

theorem answer_lenient_pruning :
    (pruning.answer threeItems {}).result = .ok (.document pruned) ∧
    (pruning.answer threeItems { lenient := true }).result = .ok (.document pruned) ∧
    pruning.root = none ∧ pruning.form ∈ [.document, .keys, .profiles, .lengths] ∧
    ∃ failure, (pruning.answer oneItem { lenient := true }).result = .error failure ∧
      failure.name ≠ "KeyNotFound" ∧ failure.name = "IndexOutOfRange" ∧
      ∃ origin, failure.origin = some origin ∧
        (origin.operation = .get ∨ origin.operation = .getDefaults) := by
  have hstrict : (pruning.answer threeItems {}).result = .ok (.document pruned) := by rfl
  have hform : pruning.form ∈ [.document, .keys, .profiles, .lengths] := by decide
  have hfail : ∃ failure, (pruning.answer oneItem { lenient := true }).result = .error failure ∧
      failure.name = "IndexOutOfRange" := ⟨_, rfl, rfl⟩
  obtain ⟨failure, hfail, hname⟩ := hfail
  obtain ⟨hmember, hplace⟩ := (answer_lenient pruning oneItem {}).2 rfl hform failure hfail
  exact ⟨hstrict, (answer_lenient pruning threeItems {}).1 _ hstrict, rfl, hform, failure, hfail,
    hmember, hname, hplace hname⟩

end Query

end JsonKeys
