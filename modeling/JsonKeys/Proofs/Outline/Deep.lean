import JsonKeys.Proofs.Outline.Positions

/-!
A deep walk goes into every value, so that its outline has the paths of all values below the
records, however the elements of an array differ. Whatever another walk visits, it visits too.
-/
namespace JsonKeys

/-- A deep walk visits what waits in its queue and, with a node, the children of the node. -/
theorem visits_closed {queue : List Node} {seen : List String} :
    (∀ n ∈ queue, n ∈ visits true queue seen) ∧
      ∀ n ∈ visits true queue seen, ∀ c ∈ n.children, c ∈ visits true queue seen := by
  fun_induction visits true queue seen with
  | case1 => simp
  | case2 node queue seen hfresh seen' fresh ih =>
    obtain ⟨hqueue, hchildren⟩ := ih
    have hall : fresh = node.children := by
      unfold fresh
      rw [List.filter_eq_self]
      simp
    constructor
    · intro n hn
      rcases List.mem_cons.mp hn with rfl | hn
      · exact List.mem_cons_self
      · exact List.mem_cons_of_mem _ (hqueue n (List.mem_append_left _ hn))
    · intro n hn c hc
      apply List.mem_cons_of_mem
      rcases List.mem_cons.mp hn with rfl | hn
      · exact hqueue c (List.mem_append_right _ (hall ▸ hc))
      · exact hchildren n hn c hc
  | case3 node queue seen hold => simp at hold

/-- A deep walk visits all that another walk from the same queue does, whatever the two have met
before. -/
theorem visits_subset_deep {deep : Bool} {queue : List Node} {seen others : List String} :
    visits deep queue seen ⊆ visits true queue others := by
  obtain ⟨hqueue, hchildren⟩ := @visits_closed queue others
  exact forall_visits (fun n _ hn => hchildren n hn) hqueue

/-- No key is lost by going deeper. Nothing is asked of the names: a key may stand for many values,
and for others in the deep outline than in the plain one. -/
theorem outline_subset_deep (document : Value) :
    ∀ key ∈ outline document false, key ∈ outline document true :=
  pathsOf_subset visits_subset_deep

/-- The key of an element is also that of a member named `#`, which has more below it. -/
def shared : Value :=
  .array [.object [("k1", .array [.null])],
    .object [("k1", .object [("#", .object [("", .null)])])]]

theorem outline_subset_deep_shared :
    "k1.#" ∈ outline shared false ∧ "k1.#" ∈ outline shared true ∧
    outline shared false ≠ outline shared true := by
  have hfirst : outline shared false = ["k1", "k1.#"] := by cbv
  have hdeep : outline shared true = ["k1", "k1.#", "k1.#."] := by cbv
  have hmem : "k1.#" ∈ outline shared false := by
    rw [hfirst]
    decide
  refine ⟨hmem, outline_subset_deep shared _ hmem, ?_⟩
  rw [hfirst, hdeep]
  decide

/-- From a node that it visits a deep walk comes to every value that names lead to. -/
theorem mem_visits_of_leads {queue : List Node} {seen : List String} {path : String} {v w : Value}
    {names : List String} (hw : v.Leads names w) (hv : ⟨path, v⟩ ∈ visits true queue seen) :
    ⟨names.foldl (fun path name => Node.childPath path (Path.escapeDots name)) path, w⟩ ∈
      visits true queue seen := by
  induction hw generalizing path with
  | here => exact hv
  | @member members name names v w hm _ ih =>
    apply ih
    apply visits_closed.2 _ hv
    exact Node.mem_children.mpr ⟨name, v, .member hm (.here v), rfl⟩
  | @element items names v w hi _ ih =>
    apply ih
    apply visits_closed.2 _ hv
    exact Node.mem_children.mpr ⟨wildcard, v, .element hi (.here v), rfl⟩

/-- A deep walk meets whatever the records hold, at the spelling of its names. -/
theorem Value.Holds.exists_mem_visits {document : Value} {names : List String}
    (h : document.Holds names) :
    ∃ n ∈ visits true (recordRoots document) [], n.path = spell names := by
  obtain ⟨record, hrecord, v, hv⟩ := h
  have hroot : ⟨"", record⟩ ∈ visits true (recordRoots document) [] := by
    apply visits_closed.1
    rw [recordRoots_eq]
    exact List.mem_map_of_mem hrecord
  exact ⟨_, mem_visits_of_leads hv hroot, rfl⟩

/-- The deep outline is sorted, has no path twice and holds the paths of all values strictly below
the records. -/
theorem outline_deep_complete {document : Value} (h : document.NamedRecords) :
    (outline document true).Pairwise (· < ·) ∧
    ∀ path, path ∈ outline document true ↔
      ∃ names, names ≠ [] ∧ document.Holds names ∧
        path = ".".intercalate (names.map Path.escapeDots) := by
  refine ⟨pairwise_pathsOf _, ?_⟩
  intro path
  constructor
  · intro hx
    obtain ⟨names, hheld, rfl, hne⟩ := Value.exists_of_mem_outline hx
    have hnames : names ≠ [] := by
      intro he
      subst he
      exact hne rfl
    exact ⟨names, hnames, hheld, spell_eq_intercalate (h.head?_ne hheld)⟩
  · intro hx
    obtain ⟨names, hnames, hheld, rfl⟩ := hx
    rw [← spell_eq_intercalate (h.head?_ne hheld), outline, mem_pathsOf]
    exact ⟨spell_ne_empty hnames (h.head?_ne hheld), hheld.exists_mem_visits⟩

/-- The records share a name with different values under it, one of which has an empty name. -/
def divergent : Value :=
  .array [.object [("k1", .object [("k2", .null)])],
    .object [("k1", .object [("", .array [.null, .object [("k.3", .null)]])])]]

example :
    outline (.array [.object [("k1", .null)], .object [("k1", .object [("k2", .null)])]]) true =
      ["k1", "k1.k2"] := by cbv

theorem outline_deep_complete_divergent :
    divergent.NamedRecords ∧ "k1..#.k\\.3" ∈ outline divergent true := by
  have hnamed : divergent.NamedRecords := by
    intro members hmem v hv
    simp [divergent, Value.records, Records.ofValue, Records.toList] at hmem
    rcases hmem with rfl | rfl <;> simp at hv
  refine ⟨hnamed, ((outline_deep_complete hnamed).2 _).mpr ?_⟩
  refine ⟨["k1", "", "#", "k.3"], by simp, ?_, by decide⟩
  refine ⟨_, List.mem_cons_of_mem _ List.mem_cons_self, .null, ?_⟩
  exact .member List.mem_cons_self (.member List.mem_cons_self
    (.element (List.mem_cons_of_mem _ List.mem_cons_self) (.member List.mem_cons_self (.here _))))

end JsonKeys
