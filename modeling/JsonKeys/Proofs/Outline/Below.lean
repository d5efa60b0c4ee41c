import JsonKeys.Proofs.Outline.FirstSeen

/-!
What a walk meets below a path. A path that does not end in a backslash keeps what is below it apart
from all else, so that nothing below it is met before the path itself.
-/
namespace JsonKeys

/-- The path goes on behind the other one with a dot. -/
def Below (other path : String) : Prop := other.toList ++ ['.'] <+: path.toList

theorem toList_childPath {parent : String} (h : parent ≠ "") (segment : String) :
    (Node.childPath parent segment).toList = parent.toList ++ '.' :: segment.toList := by
  simp [Node.childPath, h]

theorem below_childPath {parent : String} (h : parent ≠ "") (segment : String) :
    Below parent (Node.childPath parent segment) := by
  rw [Below, toList_childPath h]
  exact ⟨segment.toList, by simp⟩

theorem not_below_empty (other : String) : ¬Below other "" := by
  intro h
  have hnil := List.prefix_nil.mp h
  simp at hnil

theorem Below.childPath {other path : String} (h : Below other path) (segment : String) :
    Below other (Node.childPath path segment) := by
  have hne : path ≠ "" := fun he => not_below_empty other (he ▸ h)
  obtain ⟨rest, hrest⟩ := h
  rw [Below, toList_childPath hne, ← hrest]
  exact ⟨rest ++ '.' :: segment.toList, by simp⟩

theorem childPath_injective {parent segment other : String}
    (h : Node.childPath parent segment = Node.childPath parent other) : segment = other := by
  by_cases hparent : parent = ""
  · simpa [Node.childPath, hparent] using h
  · have hchars := congrArg String.toList h
    rw [toList_childPath hparent, toList_childPath hparent] at hchars
    exact String.toList_injective (List.cons.inj (List.append_cancel_left hchars)).2

/-- A child comes to lie below a path only where its parent is there or below. An escaped name does
not begin with a dot and has a backslash before every dot, so that the dot behind the path is none
of the name's. -/
theorem Below.of_childPath {other parent name : String} (hother : ¬EndsInBackslash other)
    (h : Below other (Node.childPath parent (Path.escapeDots name))) :
    parent = other ∨ Below other parent := by
  obtain ⟨rest, hrest⟩ := h
  rw [List.append_assoc, List.singleton_append] at hrest
  have hescape : (Path.escapeDots name).toList = Path.escapeChars name.toList :=
    String.toList_ofList
  have hsplit : ∀ before : List Char, Path.escapeChars name.toList = before ++ '.' :: rest →
      before.getLast? = some '\\' := fun before => Path.getLast?_of_escapeChars_eq
  by_cases hparent : parent = ""
  · rw [Node.childPath, if_pos hparent, hescape] at hrest
    exact absurd (hsplit _ hrest.symm) hother
  · rw [toList_childPath hparent, hescape] at hrest
    rcases List.append_eq_append_iff.mp hrest with ⟨more, hmore, hdot⟩ | ⟨more, hmore, hdot⟩
    · cases more with
      | nil =>
        rw [List.append_nil] at hmore
        exact .inl (String.toList_injective hmore)
      | cons c more =>
        obtain ⟨rfl, -⟩ := List.cons.inj hdot
        right
        rw [Below, hmore]
        exact ⟨more, by simp⟩
    · cases more with
      | nil =>
        rw [List.append_nil] at hmore
        exact .inl (String.toList_injective hmore.symm)
      | cons c more =>
        obtain ⟨rfl, hname⟩ := List.cons.inj hdot
        have hlast := hsplit more hname
        have hback : EndsInBackslash other := by
          rw [EndsInBackslash, hmore, List.getLast?_append, List.getLast?_cons, hlast]
          rfl
        exact absurd hback hother

/-- Before a node of its path a walk visits none below the path. -/
theorem exists_visits_split {queue : List Node} {seen : List String} {node : Node}
    (hnode : node ∈ visits false queue seen) (hne : node.path ≠ "")
    (hback : ¬EndsInBackslash node.path) (hqueue : ∀ n ∈ queue, ¬Below node.path n.path) :
    ∃ before after, visits false queue seen = before ++ node :: after ∧
      ∀ n ∈ before, n.path ≠ node.path ∧ ¬Below node.path n.path := by
  fun_induction visits false queue seen with
  | case1 => cases hnode
  | case2 first queue seen hfresh seen' fresh ih =>
    by_cases hfirst : first = node
    · exact ⟨[], _, by rw [hfirst]; rfl, by simp⟩
    · have hmem : node ∈ visits false (queue ++ fresh) seen' :=
        (List.mem_cons.mp hnode).resolve_left (Ne.symm hfirst)
      have hpath : first.path ≠ node.path := by
        intro hsame
        have hnew := (find?_visits_self hmem hne).1
        simp [seen', hsame, hne] at hnew
      have hbelow : ¬Below node.path first.path := hqueue first List.mem_cons_self
      have hrest : ∀ n ∈ queue ++ fresh, ¬Below node.path n.path := by
        intro n hn
        rcases List.mem_append.mp hn with hn | hn
        · exact hqueue n (List.mem_cons_of_mem _ hn)
        · obtain ⟨name, v, -, rfl⟩ := Node.mem_children.mp (List.mem_filter.mp hn).1
          intro hchild
          exact (Below.of_childPath hback hchild).elim hpath hbelow
      obtain ⟨before, after, hsplit, hbefore⟩ := ih hmem hrest
      refine ⟨first :: before, after, by rw [hsplit]; rfl, ?_⟩
      exact List.forall_mem_cons.mpr ⟨⟨hpath, hbelow⟩, hbefore⟩
  | case3 first queue seen hold ih =>
    exact ih hnode fun n hn => hqueue n (List.mem_cons_of_mem _ hn)

theorem not_endsInBackslash_spell {names : List String} (h : Plain names) :
    ¬EndsInBackslash (spell names) := by
  rcases List.eq_nil_or_concat names with rfl | ⟨others, name, rfl⟩
  · simp [spell, EndsInBackslash]
  · rw [List.concat_eq_append] at h ⊢
    have hname : name.toList.getLast? ≠ some '\\' := h.2 name (by simp)
    have hlast : (Path.escapeDots name).toList.getLast? = name.toList.getLast? := by
      rw [Path.escapeDots, String.toList_ofList, Path.getLast?_escapeChars]
    rw [spell_append_singleton, EndsInBackslash]
    by_cases hparent : spell others = ""
    · rwa [hparent, Node.childPath, if_pos rfl, hlast]
    · rw [toList_childPath hparent, List.getLast?_append, List.getLast?_cons, hlast]
      cases hchar : name.toList.getLast? with
      | none => simp
      | some c => simpa [hchar] using hname

/-- The path of more names lies below that of the first of them. -/
theorem below_spell_append {names : List String} (h : spell names ≠ "") (name : String)
    (others : List String) : Below (spell names) (spell (names ++ name :: others)) := by
  induction others using List.reverseRecOn with
  | nil =>
    rw [spell_append_singleton]
    exact below_childPath h _
  | append_singleton others last ih =>
    rw [← List.cons_append, ← List.append_assoc, spell_append_singleton]
    exact ih.childPath _

/-- Where no node ahead has a child at the path, the first node there is the child of the next
one. -/
theorem mem_visits_of_ahead {document : Value} {before after : List Node} {parent : Node}
    {name : String} {v : Value}
    (hwalk : visits false (recordRoots document) [] = before ++ parent :: after)
    (hstep : parent.value.firstStep? name = some v)
    (hne : Node.childPath parent.path (Path.escapeDots name) ≠ "")
    (hahead : ∀ n ∈ before, ∀ c ∈ n.children,
      c.path ≠ Node.childPath parent.path (Path.escapeDots name)) :
    ⟨Node.childPath parent.path (Path.escapeDots name), v⟩ ∈
      visits false (recordRoots document) [] := by
  have hbefore : (before.findSome? fun n => n.children.find?
      (·.path == Node.childPath parent.path (Path.escapeDots name))) = none := by
    rw [List.findSome?_eq_none_iff]
    intro n hn
    rw [List.find?_eq_none]
    intro c hc
    simpa using hahead n hn c hc
  have hchild : parent.children.find?
      (·.path == Node.childPath parent.path (Path.escapeDots name)) =
        some ⟨Node.childPath parent.path (Path.escapeDots name), v⟩ := by
    rw [Node.find?_children, hstep]
    · rfl
    · intro other w _
      constructor
      · exact fun he => Path.escapeDots_injective (childPath_injective he)
      · exact fun he => he ▸ rfl
  apply List.mem_of_find?_eq_some
  rw [find?_visits_eq_findSome? document hne, hwalk, List.findSome?_append, hbefore, Option.none_or,
    List.findSome?_cons, hchild]

/-- Ahead of a node at plain names a walk visits none that has a child right below them. -/
theorem exists_visits_ahead {document : Value} {names : List String} {v : Value}
    (hplain : Plain names) (hnames : names ≠ [])
    (hmem : ⟨spell names, v⟩ ∈ visits false (recordRoots document) []) (name : String) :
    ∃ before after, visits false (recordRoots document) [] = before ++ ⟨spell names, v⟩ :: after ∧
      ∀ n ∈ before, ∀ c ∈ n.children,
        c.path ≠ Node.childPath (spell names) (Path.escapeDots name) := by
  have hne := hplain.spell_ne_empty hnames
  have hback := not_endsInBackslash_spell hplain
  have hroots : ∀ n ∈ recordRoots document, ¬Below (spell names) n.path := by
    intro n hn
    rw [recordRoots_eq] at hn
    obtain ⟨record, -, rfl⟩ := List.mem_map.mp hn
    exact not_below_empty _
  obtain ⟨before, after, hsplit, hbefore⟩ := exists_visits_split hmem hne hback hroots
  refine ⟨before, after, hsplit, ?_⟩
  intro n hn c hc hpath
  obtain ⟨other, w, -, rfl⟩ := Node.mem_children.mp hc
  obtain ⟨hdiffer, hbelow⟩ := hbefore n hn
  have hchild : Below (spell names) (Node.childPath n.path (Path.escapeDots other)) := by
    have hself := below_childPath hne (Path.escapeDots name)
    rwa [← hpath] at hself
  exact (hchild.of_childPath hback).elim hdiffer hbelow

/-- Below an array at plain names all paths go on with a wildcard. -/
theorem exists_spell_of_below_array {document : Value} {names : List String} {items : List Value}
    (hplain : Plain names) (hnames : names ≠ [])
    (harray : ⟨spell names, .array items⟩ ∈ visits false (recordRoots document) []) :
    ∀ n ∈ visits false (recordRoots document) [], Below (spell names) n.path →
      ∃ after, n.path = spell (names ++ wildcard :: after) := by
  have hne := hplain.spell_ne_empty hnames
  apply forall_visits
  · intro n hn ih c hc hbelow
    obtain ⟨name, v, hv, rfl⟩ := Node.mem_children.mp hc
    rcases hbelow.of_childPath (not_endsInBackslash_spell hplain) with hpath | hbelow
    · -- the array is the only node at its path
      have hfind := (find?_visits_self hn (hpath ▸ hne)).2
      rw [hpath, (find?_visits_self harray hne).2] at hfind
      obtain rfl := Option.some.inj hfind
      cases hv with
      | element => exact ⟨[], (spell_append_singleton names wildcard).symm⟩
    · obtain ⟨after, hafter⟩ := ih hbelow
      refine ⟨after ++ [name], ?_⟩
      rw [← List.cons_append, ← List.append_assoc, spell_append_singleton, hafter]
  · intro n hn hbelow
    rw [recordRoots_eq] at hn
    obtain ⟨record, -, rfl⟩ := List.mem_map.mp hn
    exact absurd hbelow (not_below_empty _)

end JsonKeys
