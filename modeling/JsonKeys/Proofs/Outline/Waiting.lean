import Mathlib.Data.List.Nodup
import Mathlib.Data.List.Sort
import JsonKeys.Proofs.Outline.Walk

/-!
Which children wait in the queue of a walk. A walk may leave out children at paths that it has met,
as it would pass them over when their turn came: it meets the same paths and reports the same values
as a walk that lets every child wait.
-/
namespace JsonKeys

/-- What a walk has come to: the paths it has met, each once, and the nodes it has reported, in
order. -/
structure Walked where
  met : List String
  reports : List Node

namespace Walked

/-- The paths met, sorted. -/
def paths (walked : Walked) : List String := walked.met.mergeSort fun p q => decide (p ≤ q)

/-- The root is not reported. -/
def report (node : Node) (walked : Walked) : Walked :=
  if node.path = "" then walked else { walked with reports := node :: walked.reports }

theorem met_report (node : Node) (walked : Walked) : (walked.report node).met = walked.met := by
  unfold report
  split <;> rfl

theorem reports_report (node : Node) (walked : Walked) :
    (walked.report node).reports = [node].filter (·.path ≠ "") ++ walked.reports := by
  by_cases h : node.path = "" <;> simp [report, h]

end Walked

/-- The paths met once a node is expanded. That of the root is never held as met. -/
def meet (met : List String) (node : Node) : List String :=
  if node.path = "" then met else met.insert node.path

theorem mem_meet {met : List String} {node : Node} {path : String} :
    path ∈ meet met node ↔ path ∈ met ∨ (path = node.path ∧ node.path ≠ "") := by
  unfold meet
  split
  · next hnode => simp [hnode]
  · next hnode => simp [hnode, or_comm]

theorem empty_notMem_meet {met : List String} (h : "" ∉ met) (node : Node) :
    "" ∉ meet met node := by
  intro hmem
  rcases mem_meet.mp hmem with hmem | ⟨heq, hne⟩
  · exact h hmem
  · exact hne heq.symm

theorem nodup_meet {met : List String} (h : met.Nodup) (node : Node) : (meet met node).Nodup := by
  unfold meet
  split
  · exact h
  · exact h.insert

/-- A walk from a queue, with the paths that it has met. Which children of a node wait in the queue
is up to `admits`; what becomes of a node is decided when its turn comes. -/
def walk (admits : List String → Node → Bool) (deep : Bool) : List Node → List String → Walked
  | [], met => ⟨met, []⟩
  | node :: queue, met =>
    if deep || node.path == "" || !met.contains node.path then
      (walk admits deep (queue ++ node.children.filter (admits (meet met node)))
        (meet met node)).report node
    else walk admits deep queue met
termination_by queue => valueCount queue
decreasing_by
  · exact valueCount_expand_lt _ _ _
  · exact valueCount_lt_cons _ _

/-- Lets only those children wait whose paths have not been met, unless the walk is deep. -/
def unmet (deep : Bool) (met : List String) (child : Node) : Bool :=
  deep || !met.contains child.path

def everyChild (_ : List String) (_ : Node) : Bool := true

/-- At its end a walk has met what it had met before and what it has reported. -/
theorem mem_met_walk {admits : List String → Node → Bool} {deep : Bool} {queue : List Node}
    {met : List String} {path : String} : path ∈ (walk admits deep queue met).met ↔
      path ∈ met ∨ path ∈ (walk admits deep queue met).reports.map Node.path := by
  fun_induction walk admits deep queue met with
  | case1 met => simp
  | case2 node queue met hfresh ih =>
    rw [Walked.met_report, Walked.reports_report, ih, mem_meet]
    by_cases hnode : node.path = "" <;> simp [hnode, or_assoc]
  | case3 node queue met hold ih => exact ih

theorem nodup_met_walk {admits : List String → Node → Bool} {deep : Bool} {queue : List Node}
    {met : List String} (h : met.Nodup) : (walk admits deep queue met).met.Nodup := by
  fun_induction walk admits deep queue met with
  | case1 met => exact h
  | case2 node queue met hfresh ih =>
    rw [Walked.met_report]
    exact ih (nodup_meet h node)
  | case3 node queue met hold ih => exact ih h

/-- What is not let in would be passed over when its turn came. -/
def Spares (deep : Bool) (admits : List String → Node → Bool) : Prop :=
  ∀ met child, admits met child = false → deep = false ∧ child.path ∈ met

theorem spares_unmet (deep : Bool) : Spares deep (unmet deep) := by
  intro met child h
  simpa [unmet] using h

/-- The second queue is the first without some nodes that a walk passes over. -/
inductive Thinned (deep : Bool) (met : List String) : List Node → List Node → Prop
  | nil : Thinned deep met [] []
  | keep (node : Node) {full queue : List Node} (h : Thinned deep met full queue) :
      Thinned deep met (node :: full) (node :: queue)
  | leave {node : Node} {full queue : List Node} (hdeep : deep = false) (hmet : node.path ∈ met)
      (h : Thinned deep met full queue) : Thinned deep met (node :: full) queue

namespace Thinned

variable {deep : Bool} {met others : List String} {full queue more rest : List Node}

theorem refl (nodes : List Node) : Thinned deep met nodes nodes := by
  induction nodes with
  | nil => exact .nil
  | cons node nodes ih => exact .keep node ih

theorem mono (h : Thinned deep met full queue) (hsubset : met ⊆ others) :
    Thinned deep others full queue := by
  induction h with
  | nil => exact .nil
  | keep node _ ih => exact .keep node ih
  | leave hdeep hmet _ ih => exact .leave hdeep (hsubset hmet) ih

theorem append (h : Thinned deep met full queue) (hmore : Thinned deep met more rest) :
    Thinned deep met (full ++ more) (queue ++ rest) := by
  induction h with
  | nil => exact hmore
  | keep node _ ih => exact .keep node ih
  | leave hdeep hmet _ ih => exact .leave hdeep hmet ih

theorem filter {admits : List String → Node → Bool} (hadmits : Spares deep admits)
    (nodes : List Node) :
    Thinned deep met nodes (nodes.filter (admits met)) := by
  induction nodes with
  | nil => exact .nil
  | cons node nodes ih =>
    cases hnode : admits met node with
    | true =>
      rw [List.filter_cons_of_pos hnode]
      exact .keep node ih
    | false =>
      obtain ⟨hdeep, hmet⟩ := hadmits met node hnode
      rw [List.filter_cons_of_neg (by simp [hnode])]
      exact .leave hdeep hmet ih

/-- After a node is expanded the queues still differ only by nodes that are passed over. -/
theorem expand {admits : List String → Node → Bool} (hadmits : Spares deep admits)
    (h : Thinned deep met full queue) (node : Node) :
    Thinned deep (meet met node) (full ++ node.children)
      (queue ++ node.children.filter (admits (meet met node))) := by
  have hsubset : met ⊆ meet met node := fun path hpath => mem_meet.mpr (.inl hpath)
  exact (h.mono hsubset).append (filter hadmits node.children)

end Thinned

/-- A walk from a thinned queue comes to the same as one from the full queue. From the first child
left out on, the full queue holds nodes that the other lacks; these are passed over, and every other
node is met by both. -/
theorem walk_eq_of_thinned {deep : Bool} {admits : List String → Node → Bool}
    (hadmits : Spares deep admits) {full queue : List Node} {met : List String} (hroot : "" ∉ met)
    (h : Thinned deep met full queue) :
    walk admits deep queue met = walk everyChild deep full met := by
  fun_induction walk everyChild deep full met generalizing queue with
  | case1 met =>
    cases h
    rw [walk]
  | case2 node full met hfresh ih =>
    have hall : node.children.filter (everyChild (meet met node)) = node.children :=
      List.filter_eq_self.mpr fun _ _ => rfl
    cases h with
    | keep node h =>
      rw [hall] at ih ⊢
      rw [walk, if_pos hfresh, ih (empty_notMem_meet hroot node) (h.expand hadmits node)]
    | leave hdeep hmet h =>
      -- a node without a path is expanded however often it comes, but the empty path is never held
      -- as met
      have hne : node.path ≠ "" := fun heq => hroot (heq ▸ hmet)
      simp [hdeep, hmet, hne] at hfresh
  | case3 node full met hold ih =>
    cases h with
    | keep node h => rw [walk, if_neg hold, ih hroot h]
    | leave hdeep hmet h => exact ih hroot h

/-- A walk that leaves out what it has met reports what is visited for the outline. -/
theorem reports_walk_unmet {deep : Bool} {queue : List Node} {met seen : List String}
    (h : ∀ path, path ∈ met ↔ path ∈ seen) :
    (walk (unmet deep) deep queue met).reports = (visits deep queue seen).filter (·.path ≠ "") := by
  fun_induction walk (unmet deep) deep queue met generalizing seen with
  | case1 met => simp [visits]
  | case2 node queue met hfresh ih =>
    have hmeet : ∀ path, path ∈ meet met node ↔
        path ∈ if node.path == "" then seen else node.path :: seen := by
      intro path
      by_cases hnode : node.path = "" <;> simp [mem_meet, h, hnode, or_comm]
    have hchildren : node.children.filter (unmet deep (meet met node)) =
        node.children.filter fun child =>
          deep || !(if node.path == "" then seen else node.path :: seen).contains child.path := by
      apply List.filter_congr
      intro child _
      simp only [unmet, List.contains_eq_mem, hmeet]
    simp only [List.contains_eq_mem, h] at hfresh
    rw [visits, if_pos (by simpa using hfresh), Walked.reports_report, ih hmeet, hchildren,
      ← List.filter_append]
    rfl
  | case3 node queue met hold ih =>
    simp only [List.contains_eq_mem, h] at hold
    rw [visits, if_neg (by simpa using hold), ih h]

theorem paths_walk_unmet (deep : Bool) (roots : List Node) :
    (walk (unmet deep) deep roots []).paths = pathsOf (visits deep roots []) := by
  have hreports : (walk (unmet deep) deep roots []).reports =
      (visits deep roots []).filter (·.path ≠ "") :=
    reports_walk_unmet fun _ => Iff.rfl
  apply (pairwise_mergeSort (nodup_met_walk List.nodup_nil)).eq_of_mem_iff (pairwise_pathsOf _)
  intro path
  rw [List.mem_mergeSort, mem_met_walk, hreports, mem_pathsOf]
  simp only [List.not_mem_nil, false_or, List.mem_map, List.mem_filter, decide_eq_true_eq]
  constructor
  · intro hpath
    obtain ⟨node, ⟨hnode, hne⟩, rfl⟩ := hpath
    exact ⟨hne, node, hnode, rfl⟩
  · intro hpath
    obtain ⟨hne, node, hnode, rfl⟩ := hpath
    exact ⟨node, ⟨hnode, hne⟩, rfl⟩

/-- Leaving the children out that have been met is a pure optimisation. A walk that lets every child
wait, and decides when its turn comes, meets the same paths and makes the same reports with the same
values; they are those of the outline. -/
theorem walk_everyChild (document : Value) (deep underWildcard : Bool) :
    let roots := if underWildcard then wildcardRoots document else recordRoots document
    walk everyChild deep roots [] = walk (unmet deep) deep roots [] ∧
    (walk everyChild deep roots []).paths = pathsOf (visits deep roots []) ∧
    (walk everyChild deep roots []).reports = (visits deep roots []).filter (·.path ≠ "") := by
  intro roots
  have hsame : walk (unmet deep) deep roots [] = walk everyChild deep roots [] :=
    walk_eq_of_thinned (spares_unmet deep) List.not_mem_nil (.refl roots)
  rw [← hsame]
  exact ⟨rfl, paths_walk_unmet deep roots, reports_walk_unmet fun _ => Iff.rfl⟩

end JsonKeys
