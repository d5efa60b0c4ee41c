import JsonKeys.Proofs.Outline.Deep
import JsonKeys.Proofs.Outline.Levels
import JsonKeys.Proofs.Profile.Grouping
import Mathlib.Data.List.Sort
import Mathlib.Data.String.Basic

/-!
The paths of a profile. They are the keys of the deep outline; only for an array, whose elements the
outline takes for roots, does each of them stand behind the wildcard of the elements.
-/
namespace JsonKeys

/-- Where a path below an element lies as seen from the array. The empty path is the element's
own. -/
def belowWildcard (path : String) : String :=
  if path = "" then wildcard else Node.childPath wildcard path

theorem childPath_wildcard (path : String) :
    Node.childPath wildcard path = wildcard ++ "." ++ path := if_neg (by decide)

/-- A name leads to the same place before and after, unless both it and the path are empty. -/
theorem childPath_belowWildcard {path segment : String} (h : Node.childPath path segment ≠ "") :
    Node.childPath (belowWildcard path) segment = belowWildcard (Node.childPath path segment) := by
  rw [belowWildcard, belowWildcard, if_neg h]
  by_cases hpath : path = ""
  · simp [Node.childPath, hpath]
  · rw [if_neg hpath, childPath_wildcard, childPath_wildcard]
    simp [Node.childPath, hpath, wildcard, String.append_assoc]

namespace Node

def underWildcard (node : Node) : Node := ⟨belowWildcard node.path, node.value⟩

/-- No child has the path of the root. -/
def NamesChildren (node : Node) : Prop := ∀ child ∈ node.children, child.path ≠ ""

theorem namesChildren_of_path_ne {node : Node} (h : node.path ≠ "") : node.NamesChildren := by
  intro child hchild
  obtain ⟨name, v, -, rfl⟩ := mem_children.mp hchild
  simp [childPath, h]

theorem children_underWildcard {node : Node} (h : node.NamesChildren) :
    node.underWildcard.children = node.children.map underWildcard := by
  obtain ⟨path, value⟩ := node
  cases value with
  | object members =>
    simp only [underWildcard, children, List.map_map]
    apply List.map_congr_left
    intro m hm
    have hchild : childPath path (Path.escapeDots m.1) ≠ "" := by
      apply h ⟨_, m.2⟩
      exact List.mem_map.mpr ⟨m, hm, rfl⟩
    simp [underWildcard, childPath_belowWildcard hchild]
  | array items =>
    simp only [underWildcard, children, List.map_map]
    apply List.map_congr_left
    intro v hv
    have hchild : childPath path wildcard ≠ "" := by
      apply h ⟨_, v⟩
      exact List.mem_map.mpr ⟨v, hv, rfl⟩
    simp [underWildcard, childPath_belowWildcard hchild]
  | _ => rfl

end Node

/-- Taking nodes as elements of an array changes nothing in a walk but the paths. -/
theorem levelOrder_map_underWildcard {nodes : List Node} (h : ∀ node ∈ nodes, node.NamesChildren) :
    levelOrder (nodes.map Node.underWildcard) = (levelOrder nodes).map Node.underWildcard := by
  fun_induction levelOrder nodes with
  | case1 => simp [levelOrder]
  | case2 node nodes ih =>
    have hlevel : ((node :: nodes).map Node.underWildcard).flatMap Node.children =
        ((node :: nodes).flatMap Node.children).map Node.underWildcard := by
      rw [List.flatMap_map, List.map_flatMap]
      exact List.flatMap_congr fun n hn => Node.children_underWildcard (h n hn)
    have hnext : ∀ child ∈ (node :: nodes).flatMap Node.children, child.NamesChildren := by
      intro child hchild
      obtain ⟨n, hn, hchild⟩ := List.mem_flatMap.mp hchild
      exact Node.namesChildren_of_path_ne (h n hn child hchild)
    rw [List.map_cons, levelOrder, ← List.map_cons, hlevel, ih hnext, List.map_append]

theorem wildcardRoots_array (items : List Value) :
    wildcardRoots (.array items) = (recordRoots (.array items)).map Node.underWildcard := by
  simp [wildcardRoots, recordRoots, Node.underWildcard, belowWildcard, Function.comp_def]

theorem Value.NamedRecords.namesChildren {document : Value} (h : document.NamedRecords) :
    ∀ root ∈ recordRoots document, root.NamesChildren := by
  intro root hroot child hchild
  rw [recordRoots_eq] at hroot
  obtain ⟨record, hrecord, rfl⟩ := List.mem_map.mp hroot
  obtain ⟨name, v, hv, rfl⟩ := Node.mem_children.mp hchild
  have hheld : document.Holds [name] := ⟨record, hrecord, v, hv⟩
  exact spell_ne_empty (List.cons_ne_nil _ _) (h.head?_ne hheld)

/-- A deep walk through the elements of an array meets the same values in the same order whether or
not they lie under a wildcard. -/
theorem visits_wildcardRoots {items : List Value} (h : (Value.array items).NamedRecords) :
    visits true (wildcardRoots (.array items)) [] =
      (visits true (recordRoots (.array items)) []).map Node.underWildcard := by
  rw [visits_deep_eq_levelOrder, visits_deep_eq_levelOrder, wildcardRoots_array,
    levelOrder_map_underWildcard h.namesChildren]

/-- What stands behind the wildcard keeps its order. -/
theorem pairwise_below_wildcard {paths : List String} (h : paths.Pairwise (· < ·)) :
    (wildcard :: paths.map (wildcard ++ "." ++ ·)).Pairwise (· < ·) := by
  rw [List.pairwise_cons, List.pairwise_map]
  constructor
  · intro path hpath
    obtain ⟨key, -, rfl⟩ := List.mem_map.mp hpath
    rw [String.lt_iff_toList_lt]
    simp [wildcard]
  · refine h.imp fun {p q} hlt => ?_
    rw [String.lt_iff_toList_lt] at hlt ⊢
    simp only [String.toList_append]
    exact List.append_left_lt hlt

/-- Nodes among which there is a root, put under a wildcard, have the paths that they had behind it,
and the wildcard's own. -/
theorem pathsOf_map_underWildcard {nodes : List Node} (hroot : ∃ node ∈ nodes, node.path = "") :
    pathsOf (nodes.map Node.underWildcard) =
      wildcard :: (pathsOf nodes).map (wildcard ++ "." ++ ·) := by
  apply (pairwise_pathsOf _).eq_of_mem_iff (pairwise_below_wildcard (pairwise_pathsOf _))
  intro path
  simp only [mem_pathsOf, List.mem_cons, List.mem_map]
  constructor
  · rintro ⟨-, -, ⟨node, hnode, rfl⟩, rfl⟩
    by_cases hpath : node.path = ""
    · exact .inl (if_pos hpath)
    · refine .inr ⟨node.path, ⟨hpath, node, hnode, rfl⟩, ?_⟩
      rw [Node.underWildcard, belowWildcard, if_neg hpath, childPath_wildcard]
  · rintro (rfl | ⟨-, ⟨hpath, node, hnode, rfl⟩, rfl⟩)
    · obtain ⟨node, hnode, hpath⟩ := hroot
      exact ⟨by decide, node.underWildcard, ⟨node, hnode, rfl⟩, if_pos hpath⟩
    · refine ⟨by simp, node.underWildcard, ⟨node, hnode, rfl⟩, ?_⟩
      rw [Node.underWildcard, belowWildcard, if_neg hpath, childPath_wildcard]

namespace Profile

theorem map_path_ofDocument (document : Value) :
    (ofDocument document).map Profile.path = pathsOf (visits true (wildcardRoots document) []) := by
  rw [ofDocument_eq, List.map_map]
  exact List.map_id _

/-- A document that is no array has a profile for each key of its deep outline, in that order. The
profiles of an array are those of its elements' wildcard, if it has any elements, and then of each
key behind it. -/
theorem paths_ofDocument :
    (∀ document : Value, document.kind ≠ .array →
      (ofDocument document).map Profile.path = outline document true) ∧
    ∀ items : List Value, (Value.array items).NamedRecords →
      (ofDocument (.array items)).map Profile.path =
        if items = [] then []
        else wildcard :: (outline (.array items) true).map (wildcard ++ "." ++ ·) := by
  constructor
  · intro document hkind
    have hroots : wildcardRoots document = recordRoots document := by
      cases document with
      | array items => exact absurd rfl hkind
      | _ => rfl
    rw [map_path_ofDocument, hroots, outline]
  · intro items hnamed
    rw [map_path_ofDocument, visits_wildcardRoots hnamed, outline]
    cases items with
    | nil => simp [recordRoots, visits, pathsOf]
    | cons first rest =>
      rw [if_neg (List.cons_ne_nil _ _)]
      apply pathsOf_map_underWildcard
      exact ⟨⟨"", first⟩, visits_closed.1 _ List.mem_cons_self, rfl⟩

/-- An array in an array, and below the records an empty name and one with a dot. -/
def scattered : List Value :=
  [.array [.bool true], .object [("k1", .object [("", .null)])],
    .object [("k1", .object [("k.2", .null)])]]

example : (ofDocument (.object [("k1", .array scattered)])).map Profile.path =
    ["k1", "k1.#", "k1.#.#", "k1.#.k1", "k1.#.k1.", "k1.#.k1.k\\.2"] := by cbv

theorem paths_ofDocument_scattered :
    (Value.object [("k1", .array scattered)]).kind ≠ .array ∧
    (ofDocument (.object [("k1", .array scattered)])).map Profile.path =
      outline (.object [("k1", .array scattered)]) true ∧
    (Value.array scattered).NamedRecords ∧
    (ofDocument (.array scattered)).map Profile.path =
      ["#", "#.#", "#.k1", "#.k1.", "#.k1.k\\.2"] := by
  have hkind : (Value.object [("k1", .array scattered)]).kind ≠ .array := by decide
  have hnamed : (Value.array scattered).NamedRecords := by
    intro members hmem v hv
    simp [scattered, Value.records, Records.ofValue, Records.toList] at hmem
    rcases hmem with rfl | rfl <;> simp at hv
  have hkeys : outline (.array scattered) true = ["#", "k1", "k1.", "k1.k\\.2"] := by cbv
  obtain ⟨hobject, harray⟩ := paths_ofDocument
  refine ⟨hkind, hobject _ hkind, hnamed, ?_⟩
  rw [harray scattered hnamed, hkeys]
  rfl

end Profile

end JsonKeys
