import JsonKeys.Outline.Walk

/-!
The order of a deep walk. It visits its roots, then all their children, then all the children of
these, and on each level from left to right.
-/
namespace JsonKeys

theorem valueCount_append (nodes others : List Node) :
    valueCount (nodes ++ others) = valueCount nodes + valueCount others := by
  simp only [valueCount, List.map_append, itemCount_append]

theorem valueCount_flatMap_children_le (nodes : List Node) :
    valueCount (nodes.flatMap Node.children) + nodes.length ≤ valueCount nodes := by
  induction nodes with
  | nil => simp
  | cons node nodes ih =>
    have hnode := valueCount_children_lt node
    have hsum : valueCount (node :: nodes) = node.value.nodeCount + valueCount nodes := rfl
    rw [List.flatMap_cons, valueCount_append, List.length_cons, hsum]
    omega

/-- The nodes and everything below them, level by level. -/
def levelOrder : List Node → List Node
  | [] => []
  | node :: nodes => node :: nodes ++ levelOrder ((node :: nodes).flatMap Node.children)
termination_by nodes => valueCount nodes
decreasing_by
  have h := valueCount_flatMap_children_le (node :: nodes)
  rw [List.length_cons] at h
  omega

/-- A deep walk goes into a node whatever it has met, and puts the children at the end of the
queue. -/
theorem visits_deep_cons (node : Node) (queue : List Node) (seen : List String) :
    ∃ others, visits true (node :: queue) seen =
      node :: visits true (queue ++ node.children) others := by
  have hall : ∀ others : List String,
      node.children.filter (fun child => true || !others.contains child.path) = node.children := by
    intro others
    rw [List.filter_eq_self]
    simp
  refine ⟨if node.path == "" then seen else node.path :: seen, ?_⟩
  rw [visits, if_pos (by simp)]
  simp only [hall]

/-- The nodes ahead in the queue are visited first, and their children last. -/
theorem visits_deep_append (nodes queue : List Node) (seen : List String) :
    ∃ others, visits true (nodes ++ queue) seen =
      nodes ++ visits true (queue ++ nodes.flatMap Node.children) others := by
  induction nodes generalizing queue seen with
  | nil => exact ⟨seen, by simp⟩
  | cons node nodes ih =>
    obtain ⟨met, hfirst⟩ := visits_deep_cons node (nodes ++ queue) seen
    obtain ⟨others, hrest⟩ := ih (queue ++ node.children) met
    refine ⟨others, ?_⟩
    rw [List.cons_append, hfirst, List.append_assoc, hrest, List.flatMap_cons, List.append_assoc]
    rfl

theorem visits_deep_eq_levelOrder (roots : List Node) (seen : List String) :
    visits true roots seen = levelOrder roots := by
  fun_induction levelOrder roots generalizing seen with
  | case1 => rw [visits]
  | case2 node nodes ih =>
    obtain ⟨others, hwalk⟩ := visits_deep_append (node :: nodes) [] seen
    rw [List.append_nil, List.nil_append] at hwalk
    rw [hwalk, ih]

end JsonKeys
