import JsonKeys.Proofs.Value.Distinct
import JsonKeys.Proofs.Value.Position

/-!
A value without some of its members, told by their positions. Arrays keep all their items, so that
what is left is found where it was.
-/
namespace JsonKeys

namespace Position

/-- What is said of the positions below a coordinate. -/
def under (gone : Position → Bool) (c : Coordinate) : Position → Bool :=
  fun position => gone (c :: position)

/-- The positions and one more, if there is one. -/
def orAt (gone : Position → Bool) (there : Option Position) : Position → Bool :=
  fun position => gone position || decide (there = some position)

variable {gone : Position → Bool} {there : Option Position} {c d : Coordinate}

@[simp] theorem orAt_none : orAt gone none = gone := by
  funext position
  simp [orAt]

theorem orAt_eq_self (h : ∀ position, there = some position → gone position) :
    orAt gone there = gone := by
  funext position
  simpa [orAt] using h position

theorem under_orAt_self : under (orAt gone (there.map (c :: ·))) c = orAt (under gone c) there := by
  funext position
  cases there <;> simp [under, orAt]

theorem under_orAt_of_ne (there : Option Position) (h : d ≠ c) :
    under (orAt gone (there.map (c :: ·))) d = under gone d := by
  funext position
  cases there with
  | none => simp
  | some below => simp [under, orAt, Ne.symm h]

end Position

namespace Value

open Position

mutual

/-- The value without the members at the positions, and without all that is below them. -/
def without (gone : Position → Bool) : Value → Value
  | array items => array (itemsWithout gone 0 items)
  | object members => object (membersWithout gone members)
  | v => v

/-- Items of an array, of which the first is the one at `start`. -/
def itemsWithout (gone : Position → Bool) (start : Nat) : List Value → List Value
  | [] => []
  | v :: vs => v.without (under gone (.element start)) :: itemsWithout gone (start + 1) vs

def membersWithout (gone : Position → Bool) : Members Value → Members Value
  | [] => []
  | (name, v) :: ms =>
    if gone [.member name] then membersWithout gone ms
    else (name, v.without (under gone (.member name))) :: membersWithout gone ms

end

mutual

theorem without_none : ∀ v : Value, v.without (fun _ => false) = v
  | array items => congrArg array (itemsWithout_none 0 items)
  | object members => congrArg object (membersWithout_none members)
  | null | bool _ | number _ | string _ => rfl

theorem itemsWithout_none (start : Nat) :
    ∀ items : List Value, itemsWithout (fun _ => false) start items = items
  | [] => rfl
  | v :: vs => congrArg₂ List.cons v.without_none (itemsWithout_none (start + 1) vs)

theorem membersWithout_none :
    ∀ members : Members Value, membersWithout (fun _ => false) members = members
  | [] => rfl
  | (name, v) :: ms =>
    congrArg₂ (fun v ms => (name, v) :: ms) v.without_none (membersWithout_none ms)

end

variable {gone other : Position → Bool}

theorem getElem?_itemsWithout (gone : Position → Bool) (items : List Value) (start k : Nat) :
    (itemsWithout gone start items)[k]? =
      items[k]?.map (without (under gone (.element (start + k)))) := by
  induction items generalizing start k with
  | nil => rfl
  | cons v vs ih =>
    cases k with
    | zero => rfl
    | succ k =>
      have hoffset : start + 1 + k = start + (k + 1) := by omega
      rw [itemsWithout, List.getElem?_cons_succ, List.getElem?_cons_succ, ih, hoffset]

@[simp] theorem length_itemsWithout (items : List Value) (start : Nat) :
    (itemsWithout gone start items).length = items.length := by
  induction items generalizing start with
  | nil => rfl
  | cons v vs ih => rw [itemsWithout, List.length_cons, List.length_cons, ih]

theorem get_itemsWithout (items : List Value) (k : Fin items.length) :
    (itemsWithout gone 0 items).get (k.cast (length_itemsWithout items 0).symm) =
      (items.get k).without (under gone (.element k)) := by
  have h := getElem?_itemsWithout gone items 0 k
  rw [Nat.zero_add, List.getElem?_eq_getElem k.isLt, List.getElem?_eq_getElem (by simp)] at h
  exact Option.some.inj h

theorem get?_membersWithout (members : Members Value) (name : String) :
    Members.get? (membersWithout gone members) name =
      if gone [.member name] then none
      else (members.get? name).map (without (under gone (.member name))) := by
  induction members with
  | nil => simp [membersWithout, Members.get?]
  | cons m ms ih =>
    obtain ⟨n, v⟩ := m
    by_cases hgone : gone [.member n]
    · simp only [membersWithout, hgone, if_true, ih]
      by_cases hn : n = name
      · simp [← hn, hgone]
      · simp only [Members.get?, if_neg hn]
    · simp only [membersWithout, hgone, Bool.false_eq_true, if_false, Members.get?, ih]
      by_cases hn : n = name
      · simp [← hn, hgone]
      · simp only [if_neg hn]

theorem get?_membersWithout_eq_some_iff {members : Members Value} {name : String} {left : Value} :
    Members.get? (membersWithout gone members) name = some left ↔
      gone [.member name] = false ∧
        ∃ child, members.get? name = some child ∧
          child.without (under gone (.member name)) = left := by
  rw [get?_membersWithout]
  cases gone [.member name] <;> simp

/-- Members are left out alike by predicates that agree on them. -/
theorem membersWithout_congr {members : Members Value}
    (h : ∀ m ∈ members, gone [.member m.1] = true ∧ other [.member m.1] = true ∨
      under gone (.member m.1) = under other (.member m.1)) :
    membersWithout gone members = membersWithout other members := by
  induction members with
  | nil => rfl
  | cons m ms ih =>
    obtain ⟨n, v⟩ := m
    obtain ⟨hm, hms⟩ := List.forall_mem_cons.mp h
    rcases hm with ⟨hgone, hother⟩ | hunder
    · simp only [membersWithout, hgone, hother, if_true, ih hms]
    · have hat : gone [.member n] = other [.member n] := congrFun hunder []
      simp only [membersWithout, hat, hunder, ih hms]

/-- A member that is not there need not be left out, nor need anything below it. -/
theorem membersWithout_orAt_of_absent {members : Members Value} {name : String}
    (h : Members.get? (membersWithout gone members) name = none) (below : Option Position) :
    membersWithout (orAt gone (below.map (.member name :: ·))) members =
      membersWithout gone members := by
  apply membersWithout_congr
  intro m hm
  by_cases hname : m.1 = name
  · left
    have hthere : members.get? name ≠ none := by
      rw [ne_eq, Members.get?_eq_none_iff, not_not, ← hname]
      exact List.mem_map_of_mem hm
    rw [get?_membersWithout] at h
    have hgone : gone [.member m.1] = true := by
      by_contra hkept
      rw [hname] at hkept
      simp only [if_neg hkept, Option.map_eq_none_iff] at h
      exact hthere h
    exact ⟨by simp [orAt, hgone], hgone⟩
  · right
    exact under_orAt_of_ne _ (by simpa using hname)

/-- Erasing a member is leaving out one more. -/
theorem erase_membersWithout (gone : Position → Bool) (members : Members Value) (name : String) :
    Members.erase (membersWithout gone members) name =
      membersWithout (orAt gone (some [.member name])) members := by
  induction members with
  | nil => rfl
  | cons m ms ih =>
    obtain ⟨n, v⟩ := m
    by_cases hn : n = name
    · subst hn
      have hmore : orAt gone (some [.member n]) [.member n] = true := by simp [orAt]
      rw [membersWithout, membersWithout, if_pos hmore, ← ih]
      split
      · rfl
      · simp [Members.erase]
    · have hunder : under (orAt gone (some [.member name])) (.member n) = under gone (.member n) :=
        under_orAt_of_ne (some []) (by simpa using hn)
      have hat : orAt gone (some [.member name]) [.member n] = gone [.member n] :=
        congrFun hunder []
      rw [membersWithout, membersWithout, hat, hunder, ← ih]
      split
      · rfl
      · simp [Members.erase, hn]

/-- Where two predicates differ below one member only, a change in this member leads from one to the
other. -/
theorem put_membersWithout {members : Members Value} {name : String} {child : Value}
    (hnodup : (Members.names members).Nodup) (hchild : members.get? name = some child)
    (hgone : gone [.member name] = false) (hother : other [.member name] = false)
    (helse : ∀ n, n ≠ name → under other (.member n) = under gone (.member n)) :
    Members.put (membersWithout gone members) name (child.without (under other (.member name))) =
      membersWithout other members := by
  induction members with
  | nil => cases hchild
  | cons m ms ih =>
    obtain ⟨n, v⟩ := m
    obtain ⟨hnew, hrest⟩ := List.nodup_cons.mp hnodup
    by_cases hn : n = name
    · subst hn
      have hsame : membersWithout other ms = membersWithout gone ms := by
        apply membersWithout_congr
        intro m hm
        have hne : m.1 ≠ n := by
          intro heq
          have hmem : m.1 ∈ Members.names ms := List.mem_map_of_mem hm
          exact hnew (heq ▸ hmem)
        exact .inr (helse m.1 hne)
      simp only [Members.get?, if_true, Option.some.injEq] at hchild
      simp [membersWithout, hgone, hother, Members.put, hchild, hsame]
    · simp only [Members.get?, if_neg hn] at hchild
      have hat : other [.member n] = gone [.member n] := congrFun (helse n hn) []
      rw [membersWithout, membersWithout, hat, helse n hn, ← ih hrest hchild]
      split
      · rfl
      · simp [Members.put, hn]

theorem set_itemsWithout {items : List Value} {k : Nat} {child : Value}
    (hchild : items[k]? = some child)
    (helse : ∀ j, j ≠ k → under other (.element j) = under gone (.element j)) :
    (itemsWithout gone 0 items).set k (child.without (under other (.element k))) =
      itemsWithout other 0 items := by
  apply List.ext_getElem?
  intro j
  simp only [List.getElem?_set, getElem?_itemsWithout, length_itemsWithout, Nat.zero_add]
  by_cases hj : k = j
  · subst hj
    obtain ⟨hk, rfl⟩ := List.getElem?_eq_some_iff.mp hchild
    simp [hk]
  · simp only [if_neg hj, helse j (Ne.symm hj)]

/-- A part that is left. -/
theorem part?_without {v child : Value} {c : Coordinate} (hc : v.part? c = some child)
    (hkept : ∀ name, c = .member name → gone [c] = false) :
    (v.without gone).part? c = some (child.without (under gone c)) := by
  unfold part? at hc
  split at hc
  · next members name =>
    simp only [without, part?, get?_membersWithout, hkept name rfl, hc]
    rfl
  · simp only [without, part?, getElem?_itemsWithout, Nat.zero_add, hc]
    rfl
  · cases hc

/-- Leaving out one position more, below a part that is left, is leaving it out of this part. -/
theorem without_orAt_below {v child : Value} {c : Coordinate} (hd : v.Distinct)
    (hc : v.part? c = some child) (hkept : ∀ name, c = .member name → gone [c] = false)
    {below : Option Position} (hbelow : below ≠ some []) :
    v.without (orAt gone (below.map (c :: ·))) =
      (v.without gone).putPart c (child.without (orAt (under gone c) below)) := by
  unfold part? at hc
  split at hc
  · next members name =>
    have hother : orAt gone (below.map (.member name :: ·)) [.member name] = false := by
      have hthere : below.map (.member name :: ·) ≠ some [.member name] := by
        intro h
        obtain ⟨p, hp, hnil⟩ := Option.map_eq_some_iff.mp h
        exact hbelow (hp.trans (congrArg some (List.cons.inj hnil).2))
      simp [orAt, hkept name rfl, hthere]
    rw [← under_orAt_self, without, without, putPart,
      put_membersWithout (distinct_object_iff.mp hd).1 hc (hkept name rfl) hother]
    intro n hn
    exact under_orAt_of_ne _ (by simpa using hn)
  · rw [← under_orAt_self, without, without, putPart, set_itemsWithout hc]
    intro j hj
    exact under_orAt_of_ne _ (by simpa using hj)
  · cases hc

end Value

end JsonKeys
