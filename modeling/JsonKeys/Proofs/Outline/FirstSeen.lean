import JsonKeys.Proofs.Outline.Positions

/-!
A walk that is not deep finds the paths of a descent into every member of an object, but only into
the first element of an array.
-/
namespace JsonKeys

namespace Value

/-- The value that a descent goes on with at a name: that of a member, or the first element. -/
def firstStep? : Value → String → Option Value
  | object members, name => Members.get? members name
  | array (v :: _), name => if name = wildcard then some v else none
  | _, _ => none

/-- The value that a descent comes to along the names. -/
def firstAt? : Value → List String → Option Value
  | v, [] => some v
  | v, name :: names => (v.firstStep? name).bind fun u => u.firstAt? names

/-- The value that a descent through a document comes to along the names. It goes into the first
record that has the first of the names. -/
def firstInRecords? (document : Value) : List String → Option Value
  | [] => none
  | name :: names =>
    (document.records.findSome? fun r => r.firstStep? name).bind fun u => u.firstAt? names

theorem firstAt?_append_singleton (v : Value) (names : List String) (name : String) :
    v.firstAt? (names ++ [name]) = (v.firstAt? names).bind fun u => u.firstStep? name := by
  induction names generalizing v with
  | nil =>
    simp only [List.nil_append, firstAt?, Option.bind_some]
    cases v.firstStep? name <;> rfl
  | cons first names ih =>
    simp only [List.cons_append, firstAt?, ih, Option.bind_assoc]

theorem firstInRecords?_append_singleton {document : Value} {names : List String} (h : names ≠ [])
    (name : String) :
    document.firstInRecords? (names ++ [name]) =
      (document.firstInRecords? names).bind fun u => u.firstStep? name := by
  obtain ⟨first, others, rfl⟩ := List.exists_cons_of_ne_nil h
  simp only [List.cons_append, firstInRecords?, firstAt?_append_singleton, Option.bind_assoc]

theorem leads_of_firstStep? {v w : Value} {name : String} (h : v.firstStep? name = some w) :
    v.Leads [name] w := by
  unfold firstStep? at h
  split at h
  · exact .member (Members.mem_of_get? h) (.here w)
  · split at h
    · next hname =>
      obtain rfl := Option.some.inj h
      rw [hname]
      exact .element List.mem_cons_self (.here _)
    · cases h
  · cases h

theorem leads_of_firstAt? {v w : Value} {names : List String} (h : v.firstAt? names = some w) :
    v.Leads names w := by
  induction names generalizing v with
  | nil =>
    obtain rfl := Option.some.inj h
    exact .here v
  | cons name names ih =>
    obtain ⟨u, hu, hw⟩ := Option.bind_eq_some_iff.mp h
    exact (leads_of_firstStep? hu).append (ih hw)

theorem holds_of_firstInRecords? {document v : Value} {names : List String}
    (h : document.firstInRecords? names = some v) : document.Holds names := by
  cases names with
  | nil => cases h
  | cons name names =>
    obtain ⟨u, hu, hv⟩ := Option.bind_eq_some_iff.mp h
    obtain ⟨record, hrecord, hstep⟩ := List.exists_of_findSome?_eq_some hu
    exact ⟨record, hrecord, v, (leads_of_firstStep? hstep).append (leads_of_firstAt? hv)⟩

end Value

/-- If a child has the path just when it has the name, the first child at the path is that of the
first step along the name. -/
theorem Node.find?_children {node : Node} {path name : String}
    (h : ∀ other v, node.value.Leads [other] v →
      (childPath node.path (Path.escapeDots other) = path ↔ other = name)) :
    node.children.find? (·.path == path) =
      (node.value.firstStep? name).map (Node.mk path) := by
  obtain ⟨parent, value⟩ := node
  cases value with
  | object members =>
    have hmembers : ∀ m ∈ members,
        (childPath parent (Path.escapeDots m.1) = path ↔ m.1 = name) :=
      fun m hm => h m.1 m.2 (.member hm (.here m.2))
    clear h
    simp only [children, Value.firstStep?]
    induction members with
    | nil => rfl
    | cons m members ih =>
      have hm := hmembers m (by simp)
      have ih := ih fun n hn => hmembers n (by simp [hn])
      by_cases hname : m.1 = name
      · simp [Members.get?, hname, ← hm.mpr hname]
      · have hpath : (childPath parent (Path.escapeDots m.1) == path) = false := by
          simpa [hm] using hname
        simp only [List.map_cons, List.find?_cons, hpath, Members.get?, if_neg hname, ih]
  | array items =>
    cases items with
    | nil => rfl
    | cons v items =>
      have hwild := h wildcard v (.element List.mem_cons_self (.here v))
      rw [escapeDots_wildcard] at hwild
      simp only [children, Value.firstStep?]
      by_cases hname : wildcard = name
      · simp [← hname, hwild.mpr hname]
      · have hpath : childPath parent wildcard ≠ path := fun he => hname (hwild.mp he)
        simp [Ne.symm hname, hpath]
  | _ => rfl

theorem findSome?_congr {α β : Type} {f g : α → Option β} {l : List α} (h : ∀ a ∈ l, f a = g a) :
    l.findSome? f = l.findSome? g := by
  induction l with
  | nil => rfl
  | cons a l ih =>
    rw [List.findSome?_cons, List.findSome?_cons, h a (by simp), ih fun b hb => h b (by simp [hb])]

/-- A search that only a node at the path can end asks the first such node, if all of them are. -/
theorem findSome?_eq_find?_bind {α : Type} {nodes : List Node} {path : String}
    {f : Node → Option α} (hother : ∀ n ∈ nodes, n.path ≠ path → f n = none)
    (hfirst : ∀ n ∈ nodes, n.path = path → nodes.find? (·.path == path) = some n) :
    nodes.findSome? f = (nodes.find? (·.path == path)).bind f := by
  cases hfind : nodes.find? (·.path == path) with
  | none =>
    have hnone : ∀ n ∈ nodes, f n = none := by
      intro n hn
      apply hother n hn
      intro hpath
      rw [hfirst n hn hpath] at hfind
      cases hfind
    simpa using hnone
  | some node =>
    have hmem : node ∈ nodes := List.mem_of_find?_eq_some hfind
    have honly : ∀ n ∈ nodes, f n = f node ∨ f n = none := by
      intro n hn
      by_cases hpath : n.path = path
      · have hsame := hfirst n hn hpath
        rw [hfind] at hsame
        obtain rfl := Option.some.inj hsame
        exact .inl rfl
      · exact .inr (hother n hn hpath)
    rw [Option.bind_some]
    cases hnode : f node with
    | none =>
      rw [List.findSome?_eq_none_iff]
      intro n hn
      rcases honly n hn with he | he
      · rw [he, hnode]
      · exact he
    | some a =>
      have hsome : (nodes.findSome? f).isSome := by
        rw [List.findSome?_isSome_iff]
        exact ⟨node, hmem, by simp [hnode]⟩
      obtain ⟨b, hb⟩ := Option.isSome_iff_exists.mp hsome
      obtain ⟨n, hn, hnb⟩ := List.exists_of_findSome?_eq_some hb
      rcases honly n hn with he | he
      · rw [hb, ← hnb, he, hnode]
      · rw [hnb] at he
        cases he

/-- Below the roots the first node at a path is the first child at the path of a node visited. -/
theorem find?_visits_eq_findSome? (document : Value) {path : String} (hpath : path ≠ "") :
    (visits false (recordRoots document) []).find? (·.path == path) =
      (visits false (recordRoots document) []).findSome? fun n =>
        n.children.find? (·.path == path) := by
  have hroots : (recordRoots document).find? (·.path == path) = none := by
    rw [recordRoots_eq, List.find?_eq_none]
    intro root hroot
    obtain ⟨record, -, rfl⟩ := List.mem_map.mp hroot
    simpa using Ne.symm hpath
  rw [find?_visits hpath (by simp), List.find?_append, hroots, Option.none_or, List.find?_flatMap]

section

variable {document : Value} (h : document.PlainNames)

include h

/-- A node of a walk has plain names, and so have its children. -/
theorem exists_plain_of_mem_visits {n : Node}
    (hn : n ∈ visits false (recordRoots document) []) :
    ∃ names, Plain names ∧ n.path = spell names ∧
      ∀ name v, n.value.Leads [name] v → Plain (names ++ [name]) := by
  obtain ⟨record, hrecord, names, hv, hpath⟩ := document.visits_spelled false n hn
  have hchild : ∀ name v, n.value.Leads [name] v → Plain (names ++ [name]) :=
    fun name v hw => h.plain_of_holds ⟨record, hrecord, v, hv.append hw⟩
  exact ⟨names, h.plain_of_holds ⟨record, hrecord, n.value, hv⟩, hpath, hchild⟩

/-- A node has a child at a path only if it is the node that the names before the last lead to. -/
theorem find?_children_of_mem_visits {n : Node} (hn : n ∈ visits false (recordRoots document) [])
    {names : List String} {name : String} (hplain : Plain (names ++ [name])) :
    n.children.find? (·.path == spell (names ++ [name])) =
      if n.path = spell names then
        (n.value.firstStep? name).map (Node.mk (spell (names ++ [name])))
      else none := by
  obtain ⟨others, hothers, hpath, hchild⟩ := exists_plain_of_mem_visits h hn
  have hiff : ∀ other v, n.value.Leads [other] v →
      (Node.childPath n.path (Path.escapeDots other) = spell (names ++ [name]) ↔
        others = names ∧ other = name) := by
    intro other v hv
    rw [hpath, ← spell_append_singleton]
    constructor
    · intro he
      have hsame := (hchild other v hv).spell_injective hplain he
      simpa using List.append_inj' hsame rfl
    · intro hx
      obtain ⟨rfl, rfl⟩ := hx
      rfl
  split
  · next hsame =>
    obtain rfl : others = names := hothers.spell_injective hplain.of_append (hpath ▸ hsame)
    apply Node.find?_children
    intro other v hv
    rw [hiff other v hv]
    simp
  · next hdiffer =>
    rw [List.find?_eq_none]
    intro c hc hcpath
    obtain ⟨other, v, hv, rfl⟩ := Node.mem_children.mp hc
    have hsame := (hiff other v hv).mp (by simpa using hcpath)
    exact hdiffer (hpath.trans (congrArg spell hsame.1))

/-- Behind the roots a walk visits no node with the empty path. -/
theorem path_ne_empty_of_mem_visits {n : Node} (hn : n ∈ visits false
      ((document.records.map (Node.mk "")).flatMap Node.children) []) : n.path ≠ "" := by
  revert n
  apply forall_visits
  · intro n _ hpath c hc
    obtain ⟨name, v, -, rfl⟩ := Node.mem_children.mp hc
    simp [Node.childPath, hpath]
  · intro c hc
    obtain ⟨root, hroot, hc⟩ := List.mem_flatMap.mp hc
    obtain ⟨record, hrecord, rfl⟩ := List.mem_map.mp hroot
    obtain ⟨name, v, hv, rfl⟩ := Node.mem_children.mp hc
    have hplain : Plain [name] := h.plain_of_holds ⟨record, hrecord, v, hv⟩
    exact hplain.spell_ne_empty (by simp)

theorem findSome?_roots {name : String} (hplain : Plain [name]) :
    ((visits false (recordRoots document) []).findSome? fun n =>
        n.children.find? (·.path == spell [name])) =
      (document.firstInRecords? [name]).map (Node.mk (spell [name])) := by
  have hchildren : ∀ n ∈ visits false (recordRoots document) [],
      n.children.find? (·.path == spell [name]) =
        if n.path = "" then (n.value.firstStep? name).map (Node.mk (spell [name])) else none := by
    intro n hn
    have hfirst : Plain ([] ++ [name]) := hplain
    exact find?_children_of_mem_visits h hn hfirst
  have hwalk := visits_roots false document.records []
  simp only [List.append_nil, List.nil_append, ← recordRoots_eq] at hwalk
  have hbehind : (visits false ((recordRoots document).flatMap Node.children) []).findSome?
      (fun n => n.children.find? (·.path == spell [name])) = none := by
    rw [List.findSome?_eq_none_iff]
    intro n hn
    have hmem : n ∈ visits false (recordRoots document) [] := by
      rw [hwalk]
      exact List.mem_append_right _ hn
    rw [recordRoots_eq] at hn
    rw [hchildren n hmem, if_neg (path_ne_empty_of_mem_visits h hn)]
  have hrecords : (document.records.map (Node.mk "")).findSome?
        (fun n => n.children.find? (·.path == spell [name])) =
      (document.records.findSome? fun r => r.firstStep? name).map (Node.mk (spell [name])) := by
    rw [List.findSome?_map, List.map_findSome?]
    apply findSome?_congr
    intro record hrecord
    have hmem : Node.mk "" record ∈ visits false (recordRoots document) [] := by
      rw [hwalk, recordRoots_eq]
      exact List.mem_append_left _ (List.mem_map.mpr ⟨record, hrecord, rfl⟩)
    simpa using hchildren _ hmem
  rw [hwalk, List.findSome?_append, hbehind, Option.or_none, recordRoots_eq, hrecords]
  simp [Value.firstInRecords?, Value.firstAt?]

/-- The node that a walk visits at a path holds what the descent comes to along its names. -/
theorem find?_visits_spell {names : List String} (hne : names ≠ []) (hplain : Plain names) :
    (visits false (recordRoots document) []).find? (·.path == spell names) =
      (document.firstInRecords? names).map (Node.mk (spell names)) := by
  induction names using List.reverseRecOn with
  | nil => contradiction
  | append_singleton names name ih =>
    rw [find?_visits_eq_findSome? document (hplain.spell_ne_empty (by simp))]
    by_cases hnames : names = []
    · subst hnames
      exact findSome?_roots h hplain
    · have hstep : (visits false (recordRoots document) []).findSome?
            (fun n => n.children.find? (·.path == spell (names ++ [name]))) =
          ((visits false (recordRoots document) []).find? (·.path == spell names)).bind
            fun n => n.children.find? (·.path == spell (names ++ [name])) := by
        apply findSome?_eq_find?_bind
        · intro n hn hdiffer
          rw [find?_children_of_mem_visits h hn hplain, if_neg hdiffer]
        · intro n hn hsame
          rw [← hsame]
          apply (find?_visits_self hn _).2
          rw [hsame]
          exact hplain.of_append.spell_ne_empty hnames
      rw [hstep, Value.firstInRecords?_append_singleton hnames]
      have ih := ih hnames hplain.of_append
      cases hat : document.firstInRecords? names with
      | none =>
        rw [hat] at ih
        rw [ih]
        rfl
      | some v =>
        rw [hat] at ih
        have hmem := List.mem_of_find?_eq_some ih
        rw [ih, Option.map_some, Option.bind_some, Option.bind_some,
          find?_children_of_mem_visits h hmem hplain, if_pos rfl]

end

/-- The outline is sorted, has no path twice and holds the paths of a descent that goes into every
member of an object, into the first element of an array and, from the records of a root array, into
the first that has the first name. -/
theorem outline_eq_first_descent {document : Value} (h : document.PlainNames) :
    (outline document false).Pairwise (· < ·) ∧
    ∀ path, path ∈ outline document false ↔
      ∃ names, (document.firstInRecords? names).isSome ∧
        path = ".".intercalate (names.map Path.escapeDots) := by
  refine ⟨pairwise_pathsOf _, ?_⟩
  intro path
  unfold outline
  rw [mem_pathsOf]
  constructor
  · intro hx
    obtain ⟨hne, n, hn, rfl⟩ := hx
    obtain ⟨names, hplain, hpath, -⟩ := exists_plain_of_mem_visits h hn
    have hnames : names ≠ [] := by
      intro he
      subst he
      exact hne hpath
    have hfind := (find?_visits_self hn hne).2
    rw [hpath, find?_visits_spell h hnames hplain, Option.map_eq_some_iff] at hfind
    obtain ⟨v, hv, -⟩ := hfind
    exact ⟨names, by simp [hv], hpath.trans hplain.spell_eq_intercalate⟩
  · intro hx
    obtain ⟨names, hsome, rfl⟩ := hx
    obtain ⟨v, hv⟩ := Option.isSome_iff_exists.mp hsome
    have hplain := h.plain_of_holds (Value.holds_of_firstInRecords? hv)
    have hnames : names ≠ [] := by
      intro he
      subst he
      cases hv
    have hfind := find?_visits_spell h hnames hplain
    rw [hv, Option.map_some] at hfind
    rw [← hplain.spell_eq_intercalate]
    exact ⟨hplain.spell_ne_empty hnames, _, List.mem_of_find?_eq_some hfind, rfl⟩

/-- The records share a name, under which a walk goes into the first of them only. -/
def overlapping : Value :=
  .array [.object [("k1", .object [("k2", .array [])]), ("k.3", .null)],
    .object [("k1", .object [("k4", .null)])], .array [.bool true]]

example : outline overlapping false = ["#", "k1", "k1.k2", "k\\.3"] := by cbv

theorem outline_eq_first_descent_overlapping :
    overlapping.PlainNames ∧ (outline overlapping false).Pairwise (· < ·) ∧
      "k1.k2" ∈ outline overlapping false := by
  have hplain : overlapping.PlainNames := by
    constructor
    · simp [overlapping, Value.memberNames, Value.itemNames, Value.namesWithin, EndsInBackslash]
    · simp [overlapping, Value.records, Records.ofValue, Records.toList]
  obtain ⟨hsorted, hmem⟩ := outline_eq_first_descent hplain
  refine ⟨hplain, hsorted, (hmem "k1.k2").mpr ⟨["k1", "k2"], ?_, by decide⟩⟩
  simp [Value.firstInRecords?, Value.firstAt?, Value.firstStep?, Value.records, Records.ofValue,
    Records.toList, overlapping, Members.get?]

end JsonKeys
