import JsonKeys.Profile.Summary
import JsonKeys.Proofs.Number.Place
import Mathlib.Order.Bounds.Defs

/-!
The least and the greatest of what has been met, kept up one by one. Numbers are not ordered by
their comparison, for it takes a float for equal to several integers, but less than less is less,
and so the least so far stays least.
-/
namespace JsonKeys

namespace Extent

variable {α : Type}

/-- Being greater is being less the other way round, and being less is transitive. Being equal need
not be. -/
structure Compares (compare : α → α → Ordering) : Prop where
  swap : ∀ a b, (compare a b).swap = compare b a
  lt_trans : ∀ a b c, compare a b = .lt → compare b c = .lt → compare a c = .lt

/-- Both ends are among the elements, none of which is less than the one or greater than the
other. -/
structure Spans (compare : α → α → Ordering) (e : Extent α) (as : List α) : Prop where
  least_mem : e.least ∈ as
  greatest_mem : e.greatest ∈ as
  not_lt : ∀ a ∈ as, compare a e.least ≠ .lt
  not_gt : ∀ a ∈ as, compare a e.greatest ≠ .gt

theorem Compares.number : Compares Number.compare :=
  ⟨Number.compare_swap, fun _ _ _ => Number.compare_lt_trans⟩

theorem Compares.nat : Compares (compare : Nat → Nat → Ordering) := by
  refine ⟨Nat.compare_swap, ?_⟩
  intro a b c hab hbc
  rw [Nat.compare_eq_lt] at *
  omega

variable {compare : α → α → Ordering}

theorem Compares.self (h : Compares compare) (a : α) : compare a a = .eq := by
  have hswap := h.swap a a
  revert hswap
  cases compare a a <;> decide

theorem Compares.gt_iff (h : Compares compare) {a b : α} :
    compare a b = .gt ↔ compare b a = .lt := by
  rw [← h.swap a b]
  cases compare a b <;> decide

theorem Compares.gt_trans (h : Compares compare) (a b c : α) (hab : compare a b = .gt)
    (hbc : compare b c = .gt) : compare a c = .gt := by
  rw [h.gt_iff] at *
  exact h.lt_trans c b a hbc hab

theorem spans_single (h : Compares compare) (a : α) : (single a).Spans compare [a] where
  least_mem := List.mem_singleton_self a
  greatest_mem := List.mem_singleton_self a
  not_lt := by simp [single, h.self]
  not_gt := by simp [single, h.self]

/-- The one of all elements that none lies beyond is kept up by replacing it whenever one does. -/
theorem extreme_append {beyond : α → α → Prop} [DecidableRel beyond]
    (htrans : ∀ a b c, beyond a b → beyond b c → beyond a c) (hself : ∀ a, ¬beyond a a) {m : α}
    {as : List α} (hmem : m ∈ as) (hm : ∀ a ∈ as, ¬beyond a m) (a : α) :
    (if beyond a m then a else m) ∈ as ++ [a] ∧
      ∀ b ∈ as ++ [a], ¬beyond b (if beyond a m then a else m) := by
  by_cases ha : beyond a m
  · rw [if_pos ha]
    refine ⟨by simp, fun b hb => ?_⟩
    rcases List.mem_append.mp hb with hb | hb
    · exact fun hba => hm b hb (htrans b a m hba ha)
    · exact List.mem_singleton.mp hb ▸ hself b
  · rw [if_neg ha]
    refine ⟨List.mem_append_left _ hmem, fun b hb => ?_⟩
    rcases List.mem_append.mp hb with hb | hb
    · exact hm b hb
    · exact List.mem_singleton.mp hb ▸ ha

theorem Spans.widen (h : Compares compare) {e : Extent α} {as : List α}
    (hspans : e.Spans compare as) (a : α) : (e.widen compare a).Spans compare (as ++ [a]) := by
  have hlt : ∀ b, ¬compare b b = .lt := by simp [h.self]
  have hgt : ∀ b, ¬compare b b = .gt := by simp [h.self]
  obtain ⟨hleast, hnone⟩ := extreme_append h.lt_trans hlt hspans.least_mem hspans.not_lt a
  obtain ⟨hgreatest, hnone'⟩ := extreme_append h.gt_trans hgt hspans.greatest_mem hspans.not_gt a
  exact ⟨hleast, hgreatest, hnone, hnone'⟩

/-- The ends are the least and the greatest of the sizes. -/
def Encloses (e : Extent Nat) (sizes : List Nat) : Prop :=
  IsLeast {n | n ∈ sizes} e.least ∧ IsGreatest {n | n ∈ sizes} e.greatest

theorem encloses_iff_spans {e : Extent Nat} {sizes : List Nat} :
    e.Encloses sizes ↔ e.Spans Ord.compare sizes := by
  constructor
  · intro ⟨hleast, hgreatest⟩
    refine ⟨hleast.1, hgreatest.1, fun n hn => ?_, fun n hn => ?_⟩
    · rw [ne_eq, Nat.compare_eq_lt]
      exact Nat.not_lt.mpr (hleast.2 hn)
    · exact Nat.compare_ne_gt.mpr (hgreatest.2 hn)
  · intro h
    refine ⟨⟨h.least_mem, fun n hn => ?_⟩, h.greatest_mem, fun n hn => ?_⟩
    · have hlt := h.not_lt n hn
      rw [ne_eq, Nat.compare_eq_lt] at hlt
      exact Nat.not_lt.mp hlt
    · exact Nat.compare_ne_gt.mp (h.not_gt n hn)

theorem Encloses.widen {e : Extent Nat} {sizes : List Nat} (h : e.Encloses sizes) (n : Nat) :
    (e.widen Ord.compare n).Encloses (sizes ++ [n]) :=
  encloses_iff_spans.mpr ((encloses_iff_spans.mp h).widen .nat n)

theorem encloses_single (n : Nat) : (single n).Encloses [n] :=
  encloses_iff_spans.mpr (spans_single .nat n)

end Extent

end JsonKeys
