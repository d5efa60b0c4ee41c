import JsonKeys.Proofs.Place.Pruning
import JsonKeys.Proofs.Record.Halting

/-!
Erasing members leniently, one path after another. Each path takes away the member that it addresses
in the record as it was at first, so that neither their order nor repetitions count.
-/
namespace JsonKeys

namespace Value

open Position

variable {v w w' : Value} {paths others : List Path} {gone less more : Position → Bool}
  {options : Options} {item item' : Nat}

theorem eraseEach_cons (v : Value) (path : Path) (paths : List Path) (strict : Bool) :
    v.eraseEach (path :: paths) strict =
      v.erase path strict >>= fun u => u.eraseEach paths strict :=
  List.foldlM_cons

theorem eraseAll_eq_ok_iff :
    v.eraseAll paths options item = .ok w ↔ v.eraseEach paths (!options.lenient) = .ok w :=
  foldlM_atOrigin_eq_ok_iff

/-- What is left has lost the members that are addressed in the whole record, and no others. -/
theorem eraseEach_without (hnames : ∀ path ∈ paths, path.EndsInName) (hd : v.Distinct)
    (h : (v.without gone).eraseEach paths false = .ok w) :
    w = v.without fun position =>
      gone position || decide (∃ path ∈ paths, path.Addresses v position) := by
  induction paths generalizing gone with
  | nil =>
    obtain rfl := Except.ok.inj h
    simp
  | cons path paths ih =>
    obtain ⟨hname, hnames⟩ := List.forall_mem_cons.mp hnames
    rw [eraseEach_cons] at h
    obtain ⟨u, hu, h⟩ := bind_eq_ok_iff.mp h
    obtain rfl := erase_without hname hd hu
    rw [ih hnames h]
    congr 1
    funext position
    simp [orAt, Path.addresses_iff, Bool.or_assoc]

/-- Paths of which all members are gone already have nothing to take away. -/
theorem eraseEach_without_of_less (hnames : ∀ path ∈ paths, path.EndsInName) (hd : v.Distinct)
    (hle : ∀ p, less p → more p) (hgone : ∀ path ∈ paths, ∀ p, path.Addresses v p → more p)
    (h : (v.without less).eraseEach paths false = .ok w) :
    (v.without more).eraseEach paths false = .ok (v.without more) := by
  induction paths generalizing less with
  | nil => rfl
  | cons path paths ih =>
    obtain ⟨hname, hnames⟩ := List.forall_mem_cons.mp hnames
    obtain ⟨hhere, hgone⟩ := List.forall_mem_cons.mp hgone
    rw [eraseEach_cons] at h ⊢
    obtain ⟨u, hu, h⟩ := bind_eq_ok_iff.mp h
    have hstep := erase_without_of_less hname hd hle hu
    rw [orAt_eq_self fun p hp => hhere p (Path.addresses_iff.mpr hp)] at hstep
    obtain rfl := erase_without hname hd hu
    rw [hstep, ok_bind]
    refine ih hnames ?_ hgone h
    intro p hp
    rcases Bool.or_eq_true_iff.mp hp with hless | hthere
    · exact hle p hless
    · exact hhere p (Path.addresses_iff.mpr (of_decide_eq_true hthere))

/-- Members may be erased leniently in any order and any number of times: the record loses those
that the paths address in it at first, and erasing them again changes nothing. -/
theorem eraseAll_lenient_unordered (hlenient : options.lenient = true) (hd : v.Distinct)
    (hnames : ∀ path ∈ paths, path.EndsInName) (hothers : ∀ path, path ∈ others ↔ path ∈ paths)
    (h : v.eraseAll paths options item = .ok w) (h' : v.eraseAll others options item' = .ok w') :
    w = v.without (fun position => ∃ path ∈ paths, path.Addresses v position) ∧ w' = w ∧
      w.eraseAll paths options item = .ok w := by
  rw [eraseAll_eq_ok_iff, hlenient] at h h' ⊢
  rw [← without_none v] at h h'
  have hw := eraseEach_without hnames hd h
  have hw' := eraseEach_without (fun path hpath => hnames path ((hothers path).mp hpath)) hd h'
  simp only [Bool.false_or] at hw hw'
  refine ⟨hw, ?_, ?_⟩
  · simp only [hw, hw', hothers]
  · rw [hw]
    refine eraseEach_without_of_less hnames hd ?_ ?_ h
    · nofun
    · intro path hpath p hp
      exact decide_eq_true ⟨path, hpath, hp⟩

/-- One of the members is erased with another one inside it, or after that one, or twice. -/
theorem eraseAll_lenient_unordered_nested :
    let v : Value := .object [("rows", .array [.object [("n", null)],
      .object [("n", .object [("m", bool true)]), ("k", null)], .object [("n", bool false)]])]
    let w : Value := .object [("rows", .array [.object [("n", null)], .object [("k", null)],
      .object [("n", bool false)]])]
    let inner : Path := [.name "rows", .index (-2), .name "n", .name "m"]
    let outer : Path := [.name "rows", .slice ⟨some 1, none, none⟩, .index 0, .name "n"]
    let absent : Path := [.name "gone", .name "x"]
    let options : Options := { lenient := true }
    options.lenient = true ∧ v.Distinct ∧ (∀ path ∈ [inner, absent, outer], path.EndsInName) ∧
      (∀ path, path ∈ [outer, inner, outer, absent] ↔ path ∈ [inner, absent, outer]) ∧
      v.eraseAll [inner, absent, outer] options 1 = .ok w ∧
      v.eraseAll [outer, inner, outer, absent] options 1 = .ok w ∧
      w = v.without (fun position => ∃ path ∈ [inner, absent, outer], path.Addresses v position) ∧
      w.eraseAll [inner, absent, outer] options 1 = .ok w := by
  intro v w inner outer absent options
  have hd : v.Distinct := by simp [v, Distinct, MembersDistinct, ItemsDistinct]
  have hnames : ∀ path ∈ [inner, absent, outer], path.EndsInName := by
    simp only [List.forall_mem_cons, List.not_mem_nil, false_implies, implies_true, and_true]
    exact ⟨⟨"m", rfl, rfl⟩, ⟨"x", rfl, rfl⟩, ⟨"n", rfl, rfl⟩⟩
  have hothers : ∀ path, path ∈ [outer, inner, outer, absent] ↔ path ∈ [inner, absent, outer] := by
    intro path
    simp only [List.mem_cons, List.not_mem_nil, or_false]
    tauto
  have h : v.eraseAll [inner, absent, outer] options 1 = .ok w := rfl
  have h' : v.eraseAll [outer, inner, outer, absent] options 1 = .ok w := rfl
  obtain ⟨hw, -, hagain⟩ := eraseAll_lenient_unordered rfl hd hnames hothers h h'
  exact ⟨rfl, hd, hnames, hothers, h, h', hw, hagain⟩

end Value

end JsonKeys
