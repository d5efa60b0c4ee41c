import JsonKeys.Profile.Basic
import JsonKeys.Proofs.Outline.Walk
import Mathlib.Data.List.Induction
import Mathlib.Data.List.Sort
import Mathlib.Data.String.Basic

/-!
The profiles of a walk, taken in node by node. In the end there is one for each path, in order, and
it summarizes the values of all the nodes with the path.
-/
namespace JsonKeys.Profile

/-- The values under a path, in the order of a walk. -/
def occurrences (nodes : List Node) (path : String) : List Value :=
  (nodes.filter (·.path = path)).map Node.value

theorem occurrences_append_singleton (nodes : List Node) (node : Node) (path : String) :
    occurrences (nodes ++ [node]) path =
      if node.path = path then occurrences nodes path ++ [node.value]
      else occurrences nodes path := by
  by_cases h : node.path = path <;> simp [occurrences, h]

/-- At a path that is not empty the roots left out are not missed. -/
theorem occurrences_filter {path : String} (h : path ≠ "") (nodes : List Node) :
    occurrences (nodes.filter (·.path ≠ "")) path = occurrences nodes path := by
  unfold occurrences
  rw [List.filter_filter]
  congr 1
  apply List.filter_congr
  intro node _
  by_cases hnode : node.path = path <;> simp [hnode, h]

/-- What the profiles have for a path. -/
def kindsAt : List Profile → String → List Summary
  | [], _ => []
  | p :: ps, path => if p.path = path then p.kinds else kindsAt ps path

def Sorted (profiles : List Profile) : Prop := (profiles.map Profile.path).Pairwise (· < ·)

variable {profiles : List Profile}

theorem kindsAt_of_notMem {path : String} (h : path ∉ profiles.map Profile.path) :
    kindsAt profiles path = [] := by
  induction profiles with
  | nil => rfl
  | cons p ps ih =>
    rw [List.map_cons, List.mem_cons, not_or] at h
    rw [kindsAt, if_neg (Ne.symm h.1), ih h.2]

theorem kindsAt_of_mem (hsorted : Sorted profiles) {profile : Profile} (h : profile ∈ profiles) :
    kindsAt profiles profile.path = profile.kinds := by
  induction profiles with
  | nil => cases h
  | cons p ps ih =>
    obtain ⟨hfirst, hrest⟩ := List.pairwise_cons.mp hsorted
    rcases List.mem_cons.mp h with rfl | h
    · rw [kindsAt, if_pos rfl]
    · have hlt : p.path < profile.path := hfirst _ (List.mem_map_of_mem h)
      rw [kindsAt, if_neg (String.ne_of_lt hlt), ih hrest h]

theorem mem_paths_observe (node : Node) {path : String} :
    path ∈ (observe profiles node).map Profile.path ↔
      path = node.path ∨ path ∈ profiles.map Profile.path := by
  induction profiles with
  | nil => simp [observe]
  | cons p ps ih =>
    unfold observe
    split
    · simp
    · split
      · next hsame => simp [hsame]
      · simp only [List.map_cons, List.mem_cons, ih]
        exact or_left_comm

theorem sorted_observe (hsorted : Sorted profiles) (node : Node) :
    Sorted (observe profiles node) := by
  induction profiles with
  | nil => exact List.pairwise_singleton _ _
  | cons p ps ih =>
    obtain ⟨hfirst, hrest⟩ := List.pairwise_cons.mp hsorted
    unfold observe
    split
    · next hlt =>
      refine List.pairwise_cons.mpr ⟨?_, hsorted⟩
      intro path hpath
      rcases List.mem_cons.mp hpath with rfl | hpath
      · exact hlt
      · exact String.lt_trans hlt (hfirst path hpath)
    · next hnot =>
      split
      · exact hsorted
      · next hdiffer =>
        have hlt : p.path < node.path :=
          lt_of_le_of_ne (String.not_lt.mp hnot) (Ne.symm hdiffer)
        refine List.pairwise_cons.mpr ⟨?_, ih hrest⟩
        intro path hpath
        rcases (mem_paths_observe node).mp hpath with rfl | hpath
        · exact hlt
        · exact hfirst path hpath

/-- A value comes to those that the profiles have for its path, and leaves the other paths alone. -/
theorem kindsAt_observe (hsorted : Sorted profiles) (node : Node) (path : String) :
    kindsAt (observe profiles node) path =
      if node.path = path then Summary.extendAll (kindsAt profiles path) node.value
      else kindsAt profiles path := by
  induction profiles with
  | nil => rfl
  | cons p ps ih =>
    obtain ⟨hfirst, hrest⟩ := List.pairwise_cons.mp hsorted
    unfold observe
    split
    · next hlt =>
      rw [kindsAt]
      split
      · next hpath =>
        have hnew : path ∉ (p :: ps).map Profile.path := by
          intro hmem
          rcases List.mem_cons.mp hmem with hsame | hmem
          · exact String.ne_of_lt hlt (hpath.trans hsame)
          · exact String.ne_of_lt (String.lt_trans hlt (hfirst path hmem)) hpath
        rw [kindsAt_of_notMem hnew]
      · rfl
    · split
      · next hsame =>
        rw [kindsAt, kindsAt, hsame]
        split <;> rfl
      · next hdiffer =>
        rw [kindsAt, kindsAt, ih hrest]
        split
        · next hpath => rw [if_neg (hpath ▸ hdiffer)]
        · rfl

/-- The profiles are those of the nodes: one for each of their paths, in order, with a summary of
the values. -/
structure Groups (profiles : List Profile) (nodes : List Node) : Prop where
  sorted : Sorted profiles
  paths : ∀ path, path ∈ profiles.map Profile.path ↔ ∃ node ∈ nodes, node.path = path
  kinds : ∀ path, kindsAt profiles path = Summary.ofValues (occurrences nodes path)

theorem Groups.observe {nodes : List Node} (h : Groups profiles nodes) (node : Node) :
    Groups (observe profiles node) (nodes ++ [node]) where
  sorted := sorted_observe h.sorted node
  paths path := by
    rw [mem_paths_observe, h.paths]
    simp [or_comm, eq_comm]
  kinds path := by
    rw [kindsAt_observe h.sorted, h.kinds, occurrences_append_singleton]
    split
    · rw [Summary.ofValues, Summary.ofValues, List.foldl_append]
      rfl
    · rfl

theorem groups_foldl_observe (nodes : List Node) :
    Groups (nodes.foldl Profile.observe []) nodes := by
  induction nodes using List.reverseRecOn with
  | nil => exact ⟨List.Pairwise.nil, by simp, fun _ => rfl⟩
  | append_singleton nodes node ih =>
    rw [List.foldl_append]
    exact ih.observe node

/-- The profiles of a document are those of the paths of a deep walk, with a summary of all the
values that the walk meets under each. -/
theorem ofDocument_eq (document : Value) :
    ofDocument document = (pathsOf (visits true (wildcardRoots document) [])).map fun path =>
      ⟨path, Summary.ofValues (occurrences (visits true (wildcardRoots document) []) path)⟩ := by
  have hgroups := groups_foldl_observe
    ((visits true (wildcardRoots document) []).filter (·.path ≠ ""))
  rw [← ofDocument] at hgroups
  have hpaths : (ofDocument document).map Profile.path =
      pathsOf (visits true (wildcardRoots document) []) := by
    apply hgroups.sorted.eq_of_mem_iff (pairwise_pathsOf _)
    intro path
    rw [hgroups.paths, mem_pathsOf]
    simp only [List.mem_filter, decide_eq_true_eq]
    constructor
    · intro hnode
      obtain ⟨node, ⟨hmem, hne⟩, rfl⟩ := hnode
      exact ⟨hne, node, hmem, rfl⟩
    · intro hnode
      obtain ⟨hne, node, hmem, rfl⟩ := hnode
      exact ⟨node, ⟨hmem, hne⟩, rfl⟩
  have hself : ∀ profile ∈ ofDocument document, profile =
      ⟨profile.path,
        Summary.ofValues (occurrences (visits true (wildcardRoots document) []) profile.path)⟩ := by
    intro profile hprofile
    have hne : profile.path ≠ "" := by
      have hpath := List.mem_map_of_mem (f := Profile.path) hprofile
      rw [hpaths] at hpath
      exact (mem_pathsOf.mp hpath).1
    have hkinds := hgroups.kinds profile.path
    rw [kindsAt_of_mem hgroups.sorted hprofile, occurrences_filter hne] at hkinds
    rw [← hkinds]
  rw [← hpaths, List.map_map]
  exact (List.map_id _).symm.trans (List.map_congr_left hself)

end JsonKeys.Profile
