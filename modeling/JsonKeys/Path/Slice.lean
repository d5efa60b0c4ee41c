import JsonKeys.Text.Decimal

/-! Slices `start:stop:step` of an array, each bound optional. -/
namespace JsonKeys

/-- Negative bounds count from the end of the array. -/
structure Slice where
  start : Option Int64
  stop : Option Int64
  step : Option Int64
deriving DecidableEq, Repr

namespace Slice

/-- The pieces between the colons of a text, of which there is at least one. -/
def fields : List Char → List (List Char)
  | [] => [[]]
  | c :: cs =>
    if c = ':' then [] :: fields cs
    else match fields cs with
      | [] => [[c]]
      | field :: rest => (c :: field) :: rest

/-- An absent bound reads as none. -/
def bound? (cs : List Char) : Option (Option Int64) :=
  if cs.isEmpty then some none else (Text.readInt64? cs).map some

/-- Reads a slice, which has one colon or two. -/
def ofText? (cs : List Char) : Option Slice :=
  match fields cs with
  | [start, stop] => do return ⟨← bound? start, ← bound? stop, none⟩
  | [start, stop, step] => do return ⟨← bound? start, ← bound? stop, ← bound? step⟩
  | _ => none

def boundText (bound : Option Int64) : List Char := bound.elim [] fun n => Text.intText n.toInt

def text (s : Slice) : String :=
  String.ofList (boundText s.start ++ ':' :: boundText s.stop ++
    s.step.elim [] fun step => ':' :: Text.intText step.toInt)

/-- The step as an integer; an absent one is 1. -/
def stride (s : Slice) : Int := s.step.elim 1 Int64.toInt

/-- Where a bound falls in an array of `len` items: counted from the end if negative, and then kept
from `lower` to `upper`. -/
def clamp (len lower upper bound : Int) : Int :=
  if bound < 0 then max (bound + len) lower else min bound upper

/-- The first position a slice selects, were it to select any. -/
def first (s : Slice) (len : Nat) : Int :=
  if 0 < s.stride then s.start.elim 0 fun n => clamp len 0 len n.toInt
  else s.start.elim (len - 1 : Int) fun n => clamp len (-1) (len - 1) n.toInt

/-- The position a slice stops before. -/
def limit (s : Slice) (len : Nat) : Int :=
  if 0 < s.stride then s.stop.elim (len : Int) fun n => clamp len 0 len n.toInt
  else s.stop.elim (-1) fun n => clamp len (-1) (len - 1) n.toInt

/-- How many positions lie from the first, a stride apart, before the limit. -/
def count (s : Slice) (len : Nat) : Nat :=
  if 0 < s.stride then ((s.limit len - s.first len + s.stride - 1) / s.stride).toNat
  else ((s.first len - s.limit len - s.stride - 1) / -s.stride).toNat

/-- The position `k` strides from the first. -/
def position (s : Slice) (len k : Nat) : Int := s.first len + k * s.stride

theorem clamp_mem {len lower upper bound : Int} (hl : lower ≤ 0) (hu : len - 1 ≤ upper)
    (h : lower ≤ upper) :
    lower ≤ clamp len lower upper bound ∧ clamp len lower upper bound ≤ upper := by
  unfold clamp
  split <;> omega

/-- A quotient rounded up counts the multiples below its dividend. -/
private theorem lt_ceilDiv_iff {k : Nat} {d t : Int} (ht : 0 < t) :
    k < ((d + t - 1) / t).toNat ↔ k * t < d := by
  rw [Int.lt_toNat, ← Int.add_one_le_iff, Int.le_ediv_iff_mul_le ht, Int.add_mul]
  omega

theorem first_limit_up (s : Slice) (len : Nat) (h : 0 < s.stride) :
    0 ≤ s.first len ∧ s.limit len ≤ len := by
  simp only [first, limit, h, if_true]
  constructor
  · cases s.start with
    | none => simp
    | some b => exact (clamp_mem (by omega) (by omega) (by omega)).1
  · cases s.stop with
    | none => simp
    | some b => exact (clamp_mem (by omega) (by omega) (by omega)).2

theorem first_limit_down (s : Slice) (len : Nat) (h : ¬0 < s.stride) :
    s.first len ≤ len - 1 ∧ -1 ≤ s.limit len := by
  simp only [first, limit, h, if_false]
  constructor
  · cases s.start with
    | none => simp
    | some b => exact (clamp_mem (by omega) (by omega) (by omega)).2
  · cases s.stop with
    | none => simp
    | some b => exact (clamp_mem (by omega) (by omega) (by omega)).1

/-- In the direction of the step the first position comes before the second. -/
def Before (step a b : Int) : Prop := if 0 < step then a < b else b < a

/-- What is counted are the positions before the limit. -/
theorem lt_count_iff {s : Slice} {len k : Nat} (h0 : s.stride ≠ 0) :
    k < s.count len ↔ Before s.stride (s.position len k) (s.limit len) := by
  unfold count Before position
  split
  · next hs =>
    rw [lt_ceilDiv_iff hs]
    omega
  · next hs =>
    have hn : 0 < -s.stride := by omega
    have hcount : s.first len - s.limit len - s.stride - 1 =
        s.first len - s.limit len + -s.stride - 1 := by omega
    rw [hcount, lt_ceilDiv_iff hn, Int.mul_neg]
    omega

theorem position_mem {s : Slice} {len k : Nat} (h0 : s.stride ≠ 0) (h : k < s.count len) :
    0 ≤ s.position len k ∧ s.position len k < len := by
  rw [lt_count_iff h0] at h
  unfold Before at h
  split at h
  · next hs =>
    have hb := s.first_limit_up len hs
    have hk := Int.mul_nonneg (Int.natCast_nonneg k) (Int.le_of_lt hs)
    unfold position at h ⊢
    omega
  · next hs =>
    have hb := s.first_limit_down len hs
    have hk := Int.mul_nonneg (Int.natCast_nonneg k) (show 0 ≤ -s.stride by omega)
    rw [Int.mul_neg] at hk
    unfold position at h ⊢
    omega

/-- The positions a slice selects from an array of `len` items, in order. A stride of zero selects
nothing and is no slice. -/
def positions? (s : Slice) (len : Nat) : Option (List (Fin len)) :=
  if h0 : s.stride = 0 then none
  else some (List.ofFn fun k : Fin (s.count len) =>
    ⟨(s.position len k).toNat, by have := position_mem h0 k.isLt; omega⟩)

/-- The stretch of an array that a slice without gaps covers, from its start up to its end. A
reversed one is empty at its start. -/
def span? (s : Slice) (len : Nat) : Option (Nat × Nat) :=
  if s.stride = 1 then
    let start := (s.first len).toNat
    some (start, max (s.limit len).toNat start)
  else none

example : (ofText? "::2".toList).bind (·.positions? 5) = some [0, 2, 4] := by decide +kernel
example : (ofText? "::-1".toList).bind (·.positions? 3) = some [2, 1, 0] := by decide +kernel
example : (ofText? "3:1".toList).bind (·.span? 5) = some (3, 3) := by decide +kernel

end Slice

end JsonKeys
