import JsonKeys.Path.Basic
import JsonKeys.Value.Basic

/-!
Walking a document level by level for its outline, the paths in it. Names are joined by dots, and
all elements of an array share one path, which a walk expands only once unless it is deep.
-/
namespace JsonKeys

/-- A value met on a walk and the path that leads to it. The empty path is the root's. -/
structure Node where
  path : String
  value : Value

namespace Node

def childPath (parent segment : String) : String :=
  if parent = "" then segment else parent ++ "." ++ segment

def children (node : Node) : List Node :=
  match node.value with
  | .object members => members.map fun m => ⟨childPath node.path (Path.escapeDots m.1), m.2⟩
  | .array items => items.map fun v => ⟨childPath node.path wildcard, v⟩
  | _ => []

end Node

/-- How many values the nodes hold. -/
def valueCount (nodes : List Node) : Nat := Value.itemCount (nodes.map Node.value)

theorem itemCount_append (vs ws : List Value) :
    Value.itemCount (vs ++ ws) = Value.itemCount vs + Value.itemCount ws := by
  induction vs with
  | nil => simp [Value.itemCount]
  | cons v vs ih =>
    simp only [List.cons_append, Value.itemCount, ih]
    omega

private theorem memberCount_eq_itemCount (members : Members Value) :
    Value.memberCount members = Value.itemCount (members.map Prod.snd) := by
  induction members with
  | nil => rfl
  | cons m ms ih => simp [Value.memberCount, Value.itemCount, ih]

theorem valueCount_children_lt (node : Node) : valueCount node.children < node.value.nodeCount := by
  obtain ⟨path, value⟩ := node
  cases value <;>
    simp [Node.children, valueCount, Value.nodeCount, Value.itemCount, memberCount_eq_itemCount,
      Function.comp_def]

theorem valueCount_filter_le (p : Node → Bool) (nodes : List Node) :
    valueCount (nodes.filter p) ≤ valueCount nodes := by
  induction nodes with
  | nil => simp
  | cons n ns ih =>
    simp only [List.filter_cons, valueCount, List.map_cons, Value.itemCount] at ih ⊢
    split
    · simpa [Value.itemCount] using ih
    · exact Nat.le_trans ih (Nat.le_add_left _ _)

/-- A node holds more values than any of its children put in its place. -/
theorem valueCount_expand_lt (node : Node) (queue : List Node) (p : Node → Bool) :
    valueCount (queue ++ node.children.filter p) < valueCount (node :: queue) := by
  have h := valueCount_children_lt node
  have hf := valueCount_filter_le p node.children
  simp only [valueCount, List.map_append, itemCount_append, List.map_cons,
    Value.itemCount] at h hf ⊢
  omega

theorem valueCount_lt_cons (node : Node) (queue : List Node) :
    valueCount queue < valueCount (node :: queue) := by
  have : 0 < node.value.nodeCount := by cases node.value <;> simp [Value.nodeCount]
  simp only [valueCount, List.map_cons, Value.itemCount]
  omega

/-- The nodes that a walk from a queue expands, in order; `seen` holds the paths it has met. A path
met before is expanded again only if the walk is deep, and the root's path is never held as met. -/
def visits (deep : Bool) : List Node → List String → List Node
  | [], _ => []
  | node :: queue, seen =>
    if deep || node.path == "" || !seen.contains node.path then
      let seen := if node.path == "" then seen else node.path :: seen
      let fresh := node.children.filter fun child => deep || !seen.contains child.path
      node :: visits deep (queue ++ fresh) seen
    else visits deep queue seen
termination_by queue => valueCount queue
decreasing_by
  · exact valueCount_expand_lt _ _ _
  · exact valueCount_lt_cons _ _

/-- Where a walk begins if the elements of a root array count as roots. -/
def recordRoots : Value → List Node
  | .array items => items.map fun v => ⟨"", v⟩
  | v => [⟨"", v⟩]

/-- Where a walk begins if the elements of a root array lie under a wildcard. -/
def wildcardRoots : Value → List Node
  | .array items => items.map fun v => ⟨wildcard, v⟩
  | v => [⟨"", v⟩]

/-- The paths of the nodes, sorted and each once; the root's is left out. -/
def pathsOf (nodes : List Node) : List String :=
  (((nodes.map Node.path).filter (· ≠ "")).eraseDups).mergeSort fun p q => decide (p ≤ q)

/-- The paths in a document, sorted. -/
def outline (document : Value) (deep : Bool) : List String :=
  pathsOf (visits deep (recordRoots document) [])

end JsonKeys
