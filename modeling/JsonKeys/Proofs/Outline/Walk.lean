import JsonKeys.Outline.Walk

/-!
What a walk visits. A walk that is not deep visits, of all the nodes that ever wait in its queue,
the first one at each path.
-/
namespace JsonKeys

/-- What holds of the queue and passes from the nodes visited to their children holds of every node
visited. -/
theorem forall_visits {P : Node → Prop} {deep : Bool} {queue : List Node} {seen : List String}
    (hchild : ∀ n ∈ visits deep queue seen, P n → ∀ c ∈ n.children, P c)
    (hqueue : ∀ n ∈ queue, P n) : ∀ n ∈ visits deep queue seen, P n := by
  fun_induction visits deep queue seen with
  | case1 => simp
  | case2 node queue seen hfresh seen' fresh ih =>
    have hnode : P node := hqueue node (by simp)
    have hvisits : ∀ n ∈ visits deep (queue ++ fresh) seen', P n := by
      apply ih
      · exact fun n hn => hchild n (List.mem_cons_of_mem _ hn)
      · intro n hn
        rcases List.mem_append.mp hn with hn | hn
        · exact hqueue n (by simp [hn])
        · exact hchild node List.mem_cons_self hnode n (List.mem_filter.mp hn).1
    intro n hn
    rcases List.mem_cons.mp hn with rfl | hn
    · exact hnode
    · exact hvisits n hn
  | case3 node queue seen hold ih => exact ih hchild fun n hn => hqueue n (by simp [hn])

/-- Among the nodes visited the first at a new path is the first of all that wait in the queue. -/
theorem find?_visits {queue : List Node} {seen : List String} {path : String} (hpath : path ≠ "")
    (hseen : path ∉ seen) :
    (visits false queue seen).find? (·.path == path) =
      (queue ++ (visits false queue seen).flatMap Node.children).find? (·.path == path) := by
  fun_induction visits false queue seen with
  | case1 => rfl
  | case2 node queue seen hfresh seen' fresh ih =>
    by_cases hnode : node.path = path
    · simp [hnode]
    · have hseen' : path ∉ seen' := by
        simp only [seen']
        split
        · exact hseen
        · simp [hseen, Ne.symm hnode]
      -- the children left out of the queue have paths met before, unlike the one looked for
      have hchildren : fresh.find? (·.path == path) = node.children.find? (·.path == path) := by
        simp only [fresh, List.find?_filter]
        congr 1
        funext c
        by_cases hc : c.path = path
        · simp [hc, hseen']
        · simp [hc]
      have hskip : (node.path == path) = false := by simpa using hnode
      simp only [List.find?_cons, hskip, List.cons_append, List.flatMap_cons, List.find?_append,
        hchildren, ih hseen', Option.or_assoc]
  | case3 node queue seen hold ih =>
    have hmet : node.path ∈ seen := by
      simp only [Bool.false_or, Bool.or_eq_true, not_or] at hold
      simpa using hold.2
    have hskip : (node.path == path) = false := by
      rw [beq_eq_false_iff_ne]
      intro he
      subst he
      exact hseen hmet
    simp only [List.cons_append, List.find?_cons, hskip, ih hseen]

/-- No path is visited twice, nor one that was met before. -/
theorem find?_visits_self {queue : List Node} {seen : List String} {n : Node}
    (hn : n ∈ visits false queue seen) (hpath : n.path ≠ "") :
    n.path ∉ seen ∧ (visits false queue seen).find? (·.path == n.path) = some n := by
  fun_induction visits false queue seen with
  | case1 => cases hn
  | case2 node queue seen hfresh seen' fresh ih =>
    rcases List.mem_cons.mp hn with rfl | hn
    · have hnew : n.path ∉ seen := by simpa [hpath] using hfresh
      exact ⟨hnew, by simp⟩
    · obtain ⟨hnew, hfind⟩ := ih hn
      have hne : node.path ≠ n.path := by
        intro he
        apply hnew
        simp [seen', he, hpath]
      have hskip : (node.path == n.path) = false := by simpa using hne
      refine ⟨?_, by simp only [List.find?_cons, hskip, hfind]⟩
      intro hmem
      apply hnew
      simp only [seen']
      split
      · exact hmem
      · simp [hmem]
  | case3 node queue seen hold ih => exact ih hn

/-- Roots have the empty path and are all visited, ahead of what lies under them. -/
theorem visits_roots (deep : Bool) (records : List Value) (queue : List Node) :
    visits deep (records.map (Node.mk "") ++ queue) [] =
      records.map (Node.mk "") ++
        visits deep (queue ++ (records.map (Node.mk "")).flatMap Node.children) [] := by
  induction records generalizing queue with
  | nil => simp
  | cons record records ih =>
    have hall : (Node.mk "" record).children.filter
        (fun c => deep || !([] : List String).contains c.path) = (Node.mk "" record).children := by
      rw [List.filter_eq_self]
      simp
    rw [List.map_cons, List.cons_append, visits]
    simp only [beq_self_eq_true, Bool.or_true, Bool.true_or, if_true, hall]
    rw [List.append_assoc, ih, List.append_assoc]
    rfl

theorem mem_pathsOf {nodes : List Node} {path : String} :
    path ∈ pathsOf nodes ↔ path ≠ "" ∧ ∃ n ∈ nodes, n.path = path := by
  simp [pathsOf, List.mem_mergeSort, List.mem_eraseDups, and_comm]

theorem pathsOf_subset {nodes others : List Node} (h : nodes ⊆ others) :
    pathsOf nodes ⊆ pathsOf others := by
  intro path hpath
  obtain ⟨hne, n, hn, hat⟩ := mem_pathsOf.mp hpath
  exact mem_pathsOf.mpr ⟨hne, n, h hn, hat⟩

theorem nodup_eraseDups {α : Type} [BEq α] [LawfulBEq α] (as : List α) : as.eraseDups.Nodup := by
  induction h : as.length using Nat.strongRecOn generalizing as with
  | ind n ih =>
    cases as with
    | nil => simp
    | cons p ps =>
      have hlen : (ps.filter fun q => !q == p).length < n := by
        have := List.length_filter_le (fun q => !q == p) ps
        simp only [List.length_cons] at h
        omega
      rw [List.eraseDups_cons, List.nodup_cons]
      refine ⟨?_, ih _ hlen _ rfl⟩
      simp [List.mem_eraseDups]

theorem eraseDups_snoc {α : Type} [BEq α] [LawfulBEq α] (as : List α) (a : α) [Decidable (a ∈ as)] :
    (as ++ [a]).eraseDups = if a ∈ as then as.eraseDups else as.eraseDups ++ [a] := by
  by_cases h : a ∈ as <;> simp [List.eraseDups_append, List.eraseDups_cons, List.removeAll, h]

/-- Texts that differ stand in strict order once they are sorted. -/
theorem pairwise_mergeSort {texts : List String} (h : texts.Nodup) :
    (texts.mergeSort fun p q => decide (p ≤ q)).Pairwise (· < ·) := by
  have hsorted : (texts.mergeSort fun p q => decide (p ≤ q)).Pairwise fun p q =>
      decide (p ≤ q) := by
    apply List.pairwise_mergeSort
    · intro p q r hpq hqr
      simp only [decide_eq_true_eq] at hpq hqr ⊢
      exact String.le_trans hpq hqr
    · simpa using String.le_total
  have hle : (texts.mergeSort fun p q => decide (p ≤ q)).Pairwise (· ≤ ·) := by simpa using hsorted
  have hne : (texts.mergeSort fun p q => decide (p ≤ q)).Nodup :=
    (List.mergeSort_perm _ _).nodup_iff.mpr h
  refine (hle.and hne).imp ?_
  intro p q hpair
  obtain ⟨hpq, hdistinct⟩ := hpair
  rw [← String.not_le]
  intro hqp
  exact hdistinct (String.le_antisymm hpq hqp)

theorem pairwise_pathsOf (nodes : List Node) : (pathsOf nodes).Pairwise (· < ·) :=
  pairwise_mergeSort (nodup_eraseDups _)

end JsonKeys
