import JsonKeys.Value.Basic

/-! Concrete positions inside a value: what is there, and putting another value there. -/
namespace JsonKeys

/-- The step from a container down to one of its parts. -/
inductive Coordinate where
  | member (name : String)
  | element (offset : Nat)
deriving DecidableEq, Repr

/-- The steps from a value down to a value inside it. -/
abbrev Position := List Coordinate

/-- Neither position lies in the other. -/
def Position.Apart (position other : Position) : Prop := ¬position <+: other ∧ ¬other <+: position

theorem Position.apart_cons_iff {c : Coordinate} {position other : Position} :
    Apart (c :: position) (c :: other) ↔ Apart position other := by
  simp only [Apart, List.cons_prefix_cons, true_and]

namespace Value

def part? : Value → Coordinate → Option Value
  | .object members, .member name => Members.get? members name
  | .array items, .element k => items[k]?
  | _, _ => none

/-- Puts a value where a part was. -/
def putPart (v : Value) (c : Coordinate) (part : Value) : Value :=
  match v, c with
  | .object members, .member name => .object (Members.put members name part)
  | .array items, .element k => .array (items.set k part)
  | _, _ => v

def at? : Value → Position → Option Value
  | v, [] => some v
  | v, c :: position => (v.part? c).bind fun part => part.at? position

/-- Puts a value at a position, if the position is there. -/
def putAt : Value → Position → Value → Value
  | _, [], new => new
  | v, c :: position, new =>
    match v.part? c with
    | some part => v.putPart c (part.putAt position new)
    | none => v

theorem part?_putPart_self {v part : Value} {c : Coordinate} (h : v.part? c = some part)
    (new : Value) : (v.putPart c new).part? c = some new := by
  unfold part? at h
  split at h
  · simp [putPart, part?]
  · have hk := (List.getElem?_eq_some_iff.mp h).1
    simp [putPart, part?, hk]
  · cases h

theorem putPart_putPart_self (v : Value) (c : Coordinate) (first second : Value) :
    (v.putPart c first).putPart c second = v.putPart c second := by
  cases v <;> cases c <;> simp [putPart]

theorem putPart_part {v part : Value} {c : Coordinate} (h : v.part? c = some part) :
    v.putPart c part = v := by
  unfold part? at h
  split at h
  · simp only [putPart, Members.put_of_get? h]
  · obtain ⟨hk, rfl⟩ := List.getElem?_eq_some_iff.mp h
    simp [putPart]
  · cases h

theorem putAt_putAt_self (v : Value) (position : Position) (first second : Value) :
    (v.putAt position first).putAt position second = v.putAt position second := by
  induction position generalizing v with
  | nil => rfl
  | cons c position ih =>
    cases h : v.part? c with
    | none => simp [putAt, h]
    | some part => simp [putAt, h, part?_putPart_self h, putPart_putPart_self, ih]

theorem putAt_of_at? {v part : Value} {position : Position} (h : v.at? position = some part) :
    v.putAt position part = v := by
  induction position generalizing v with
  | nil => exact (Option.some.inj h).symm
  | cons c position ih =>
    obtain ⟨child, hc, hchild⟩ := Option.bind_eq_some_iff.mp h
    simp only [putAt, hc, ih hchild, putPart_part hc]

theorem part?_putPart_of_ne (v : Value) {c d : Coordinate} (h : c ≠ d) (new : Value) :
    (v.putPart c new).part? d = v.part? d := by
  cases v with
  | object members =>
    cases c with
    | element k => rfl
    | member name =>
      cases d with
      | element k => rfl
      | member other =>
        have hname : name ≠ other := fun heq => h (congrArg Coordinate.member heq)
        exact Members.get?_put_of_ne members new hname
  | array items =>
    cases c with
    | member name => rfl
    | element j =>
      cases d with
      | member name => rfl
      | element k =>
        have hoffset : j ≠ k := fun heq => h (congrArg Coordinate.element heq)
        exact List.getElem?_set_ne hoffset
  | _ => rfl

theorem at?_append (v : Value) (position below : Position) :
    v.at? (position ++ below) = (v.at? position).bind (·.at? below) := by
  induction position generalizing v with
  | nil => rfl
  | cons c position ih => simp only [List.cons_append, at?, ih, Option.bind_assoc]

theorem putAt_append {v part : Value} {position : Position} (h : v.at? position = some part)
    (below : Position) (new : Value) :
    v.putAt (position ++ below) new = v.putAt position (part.putAt below new) := by
  induction position generalizing v with
  | nil =>
    cases h
    rfl
  | cons c position ih =>
    obtain ⟨child, hc, hchild⟩ := Option.bind_eq_some_iff.mp h
    simp only [List.cons_append, putAt, hc, ih hchild]

/-- At a position above the change stands the old value with the change in it. -/
theorem at?_putAt_append (v : Value) (position below : Position) (new : Value) :
    (v.putAt (position ++ below) new).at? position =
      (v.at? position).map (·.putAt below new) := by
  induction position generalizing v with
  | nil => rfl
  | cons c position ih =>
    cases h : v.part? c with
    | none => simp [putAt, at?, h]
    | some part => simp [putAt, at?, h, part?_putPart_self h, ih]

theorem at?_putAt_self {v part : Value} {position : Position} (h : v.at? position = some part)
    (new : Value) : (v.putAt position new).at? position = some new := by
  have habove := at?_putAt_append v position [] new
  rwa [List.append_nil, h] at habove

/-- A change is not seen from a position that is neither above nor below it. -/
theorem at?_putAt_of_apart {v : Value} {position other : Position}
    (hapart : Position.Apart position other) (new : Value) :
    (v.putAt position new).at? other = v.at? other := by
  induction position generalizing v other with
  | nil => exact absurd List.nil_prefix hapart.1
  | cons c position ih =>
    cases other with
    | nil => exact absurd List.nil_prefix hapart.2
    | cons d other =>
      cases h : v.part? c with
      | none => simp only [putAt, h]
      | some part =>
        by_cases hcd : c = d
        · subst hcd
          have hpart : (part.putAt position new).at? other = part.at? other :=
            ih (Position.apart_cons_iff.mp hapart)
          simp only [putAt, at?, h, part?_putPart_self h, Option.bind_some, hpart]
        · simp only [putAt, at?, h, part?_putPart_of_ne v hcd]

end Value

end JsonKeys
