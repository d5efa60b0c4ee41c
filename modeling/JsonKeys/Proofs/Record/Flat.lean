import JsonKeys.Record.Flat
import JsonKeys.Proofs.Failure
import JsonKeys.Proofs.Outline.Fields

/-!
Flattening an object. Its members are those of the leaves whose names a key is read back as, in the
order of their keys. Where all names are simple these are all the leaves.
-/
namespace JsonKeys.Flat

/-- What is put for a path, if the value there is no object. -/
def pathMember? (document : Value) (path : Path) : Option (String × Value) :=
  match document.get path with
  | .ok v => if v.kind = .object then none else some (path.outputName true, v)
  | .error _ => none

/-- What is put for a key of an outline. -/
def keyMember? (document : Value) (key : String) : Option (String × Value) :=
  if (Path.ofText key).throughWildcard then none else pathMember? document (Path.ofText key)

theorem pathMember?_eq_some_iff {document v : Value} {path : Path} {name : String} :
    pathMember? document path = some (name, v) ↔
      document.get path = .ok v ∧ v.kind ≠ .object ∧ name = path.outputName true := by
  unfold pathMember?
  cases document.get path with
  | error e => simp
  | ok w =>
    by_cases hk : w.kind = .object
    · simp only [hk, if_true, reduceCtorEq, Except.ok.injEq, false_iff, not_and]
      rintro rfl
      exact fun h => absurd hk h
    · simp only [hk, if_false, Option.some.injEq, Prod.mk.injEq, Except.ok.injEq]
      constructor
      · rintro ⟨rfl, rfl⟩
        exact ⟨rfl, hk, rfl⟩
      · rintro ⟨rfl, -, rfl⟩
        exact ⟨rfl, rfl⟩

theorem add_eq_ok_iff {document : Value} {flat result : Flat} {path : Path} :
    add document flat path = .ok result ↔
      (∃ v, document.get path = .ok v) ∧
        result = Members.putAll flat (pathMember? document path).toList := by
  unfold add pathMember?
  cases document.get path with
  | error e => simp
  | ok v => cases v <;> simp [Value.kind, eq_comm, pure, Except.pure]

/-- The members of the paths are put in order, provided that every path leads to a value. -/
theorem addAll_eq_ok_iff {document : Value} {paths : List Path} {item : Nat} {flat result : Flat} :
    addAll document paths item flat = .ok result ↔
      (∀ path ∈ paths, path.throughWildcard = false → ∃ v, document.get path = .ok v) ∧
        result = Members.putAll flat
          ((paths.filter fun path => !path.throughWildcard).filterMap (pathMember? document)) := by
  have hfilter : (∀ path ∈ paths, path.throughWildcard = false → ∃ v, document.get path = .ok v) ↔
      ∀ path ∈ paths.filter fun path => !path.throughWildcard, ∃ v, document.get path = .ok v := by
    simp [List.mem_filter]
  rw [hfilter]
  unfold addAll
  -- the origin of a failure names all the paths, also those that are left out
  generalize paths.filter (fun path => !path.throughWildcard) = kept
  induction kept generalizing flat with
  | nil => simp [pure, Except.pure, eq_comm]
  | cons path kept ih =>
    simp only [List.foldlM_cons, bind_eq_ok_iff, atOrigin_eq_ok_iff, add_eq_ok_iff, ih,
      List.forall_mem_cons, List.filterMap_cons]
    cases hm : pathMember? document path <;> simp [and_assoc]

theorem ofDocument_eq_ok_iff {document : Value} {flat : Flat} :
    ofDocument document = .ok flat ↔
      (∀ key ∈ outline document false, (Path.ofText key).throughWildcard = false →
        ∃ v, document.get (Path.ofText key) = .ok v) ∧
      flat = Members.putAll [] ((outline document false).filterMap (keyMember? document)) := by
  have hkeys : ((outlinePaths document false).filter fun path => !path.throughWildcard).filterMap
      (pathMember? document) = (outline document false).filterMap (keyMember? document) := by
    rw [outlinePaths, List.filterMap_filter, List.filterMap_map]
    congr 1
    funext key
    cases hw : (Path.ofText key).throughWildcard <;> simp [keyMember?, hw]
  rw [ofDocument, ofPaths, addAll_eq_ok_iff, hkeys]
  simp [outlinePaths]

theorem nodup_names {document : Value} {flat : Flat} (h : ofDocument document = .ok flat) :
    (Members.names flat).Nodup := by
  rw [(ofDocument_eq_ok_iff.mp h).2]
  exact Members.nodup_putAll_nil _

theorem outputName_ofNames (names : List String) :
    (Path.ofNames names).outputName true = ".".intercalate names := by
  simp [Path.outputName, Path.ofNames, Function.comp_def, Segment.text]

/-- The names are read back from their key, and none of them reads as a wildcard. -/
def Keyed (names : List String) : Prop := Readable names ∧ wildcard ∉ names

instance (names : List String) : Decidable (Keyed names) := by
  unfold Keyed
  infer_instance

section

variable {members : Members Value} (hd : (Value.object members).Distinct)

include hd

/-- A leaf is at such names exactly if its key is listed and is read back as them, past no
wildcard. -/
theorem keyed_iff {names : List String} {v : Value}
    (hleaf : (names, v) ∈ (Value.object members).leaves) :
    Keyed names ↔ spell names ∈ outline (.object members) false ∧
      Path.ofText (spell names) = Path.ofNames names ∧ wildcard ∉ names := by
  constructor
  · intro h
    have hv := ((Value.mem_leaves_iff hd).mp hleaf).1
    obtain ⟨hmem, hread⟩ := mem_outline_of_fieldAt? h.1 (Value.ne_nil_of_mem_leaves hleaf) hv
    exact ⟨hmem, hread, h.2⟩
  · intro h
    obtain ⟨hmem, hread, hwild⟩ := h
    exact ⟨(readable_iff (mem_pathsOf.mp hmem).1).mpr hread, hwild⟩

/-- A leaf at such names has a key, which stands for it. -/
theorem keyMember?_of_mem_leaves {names : List String} {v : Value}
    (hleaf : (names, v) ∈ (Value.object members).leaves) (h : Keyed names) :
    spell names ∈ outline (.object members) false ∧
      keyMember? (.object members) (spell names) = some (".".intercalate names, v) := by
  obtain ⟨hv, hkind⟩ := (Value.mem_leaves_iff hd).mp hleaf
  obtain ⟨hmem, hread, hwild⟩ := (keyed_iff hd hleaf).mp h
  refine ⟨hmem, ?_⟩
  rw [keyMember?, hread, if_neg (mt (throughWildcard_ofNames names).mp hwild)]
  exact pathMember?_eq_some_iff.mpr ⟨Value.get_ofNames hv, hkind, (outputName_ofNames names).symm⟩

/-- A key that stands for a member is that of a leaf. -/
theorem exists_mem_leaves_of_keyMember? {key name : String} {v : Value}
    (hkey : key ∈ outline (.object members) false)
    (hm : keyMember? (.object members) key = some (name, v)) :
    ∃ names, (names, v) ∈ (Value.object members).leaves ∧ Keyed names ∧ key = spell names ∧
      name = ".".intercalate names := by
  unfold keyMember? at hm
  split at hm
  · cases hm
  · next hthrough =>
    obtain ⟨hget, hkind, hname⟩ := pathMember?_eq_some_iff.mp hm
    obtain ⟨names, hreadable, -, hwild, hspell, hread, hv⟩ :=
      exists_fieldAt?_of_get hkey (by simpa using hthrough) hget
    rw [hread, outputName_ofNames] at hname
    exact ⟨names, (Value.mem_leaves_iff hd).mpr ⟨hv, hkind⟩, ⟨hreadable, hwild⟩, hspell, hname⟩

theorem mem_keyMembers_iff {name : String} {v : Value} :
    (name, v) ∈ (outline (.object members) false).filterMap (keyMember? (.object members)) ↔
      ∃ names, (names, v) ∈ (Value.object members).leaves ∧ Keyed names ∧
        name = ".".intercalate names := by
  rw [List.mem_filterMap]
  constructor
  · intro hmem
    obtain ⟨key, hkey, hm⟩ := hmem
    obtain ⟨names, hleaf, hkeyed, -, hname⟩ := exists_mem_leaves_of_keyMember? hd hkey hm
    exact ⟨names, hleaf, hkeyed, hname⟩
  · intro hleaf
    obtain ⟨names, hleaf, hkeyed, rfl⟩ := hleaf
    exact ⟨spell names, keyMember?_of_mem_leaves hd hleaf hkeyed⟩

variable (hplain : (Value.object members).PlainFields)

include hplain

/-- All keys without a wildcard lead to values. -/
theorem exists_get_of_mem_outline {deep : Bool} {key : String}
    (hkey : key ∈ outline (.object members) deep)
    (hthrough : (Path.ofText key).throughWildcard = false) :
    ∃ v, (Value.object members).get (Path.ofText key) = .ok v := by
  obtain ⟨names, v, hv, -, -, -, hread⟩ := exists_fieldAt?_of_mem_outline hd hplain hkey hthrough
  exact ⟨v, hread ▸ Value.get_ofNames hv⟩

theorem exists_ofDocument : ∃ flat, ofDocument (.object members) = .ok flat :=
  ⟨_, ofDocument_eq_ok_iff.mpr ⟨fun _ => exists_get_of_mem_outline hd hplain, rfl⟩⟩

end

/-- A name that is written in a key as it stands and read back as one. -/
structure SimpleName (name : String) : Prop where
  ne_empty : name ≠ ""
  ne_wildcard : name ≠ wildcard
  no_dot : '.' ∉ name.toList
  no_backslash : ¬EndsInBackslash name

theorem plain_of_simple {names : List String} (h : ∀ name ∈ names, SimpleName name) :
    Plain names :=
  ⟨fun he => (h "" (List.mem_of_mem_head? he)).ne_empty rfl,
    fun name hn => (h name hn).no_backslash⟩

theorem keyed_of_simple {names : List String} (h : ∀ name ∈ names, SimpleName name) : Keyed names :=
  ⟨(plain_of_simple h).readable, fun hmem => (h _ hmem).ne_wildcard rfl⟩

theorem spell_of_simple {names : List String} (h : ∀ name ∈ names, SimpleName name) :
    spell names = ".".intercalate names := by
  have hescape : names.map Path.escapeDots = names.map id :=
    List.map_congr_left fun name hname => Path.escapeDots_eq_self (h name hname).no_dot
  rw [spell_eq_intercalate (plain_of_simple h).1, hescape, List.map_id]

/-- Names that are simple never have the same text. -/
theorem intercalate_injective_of_simple {names others : List String}
    (h : ∀ name ∈ names, SimpleName name) (ho : ∀ name ∈ others, SimpleName name)
    (heq : ".".intercalate names = ".".intercalate others) : names = others := by
  apply (plain_of_simple h).spell_injective (plain_of_simple ho)
  rw [spell_of_simple h, spell_of_simple ho, heq]

theorem plainFields_of_simple {members : Members Value}
    (h : ∀ name ∈ (Value.object members).fieldNames, SimpleName name) :
    (Value.object members).PlainFields :=
  Value.plainFields_of_fieldNames fun name hname =>
    ⟨(h name hname).ne_empty, (h name hname).no_backslash⟩

section

variable {members : Members Value} (hd : (Value.object members).Distinct)
  (hsimple : ∀ name ∈ (Value.object members).fieldNames, SimpleName name)

include hd hsimple

theorem simple_of_mem_leaves {leaf : List String × Value}
    (h : leaf ∈ (Value.object members).leaves) : ∀ name ∈ leaf.1, SimpleName name :=
  fun name hname => hsimple name (Value.subset_fieldNames ((Value.mem_leaves_iff hd).mp h).1 hname)

/-- Simple names tell the leaves apart when they are joined by dots. -/
theorem nodup_dotted_leaves :
    ((Value.object members).leaves.map fun leaf => ".".intercalate leaf.1).Nodup := by
  have hmap : (Value.object members).leaves.map (fun leaf => ".".intercalate leaf.1) =
      ((Value.object members).leaves.map Prod.fst).map (".".intercalate ·) := by
    rw [List.map_map]
    rfl
  rw [hmap]
  apply List.Nodup.map_on _ (Value.nodup_leaves hd)
  intro names hn others ho heq
  obtain ⟨leaf, hleaf, rfl⟩ := List.mem_map.mp hn
  obtain ⟨other, hother, rfl⟩ := List.mem_map.mp ho
  exact intercalate_injective_of_simple (simple_of_mem_leaves hd hsimple hleaf)
    (simple_of_mem_leaves hd hsimple hother) heq

/-- The members come in the order of their keys, which are their names. -/
theorem pairwise_names_keyMembers :
    (Members.names ((outline (.object members) false).filterMap
      (keyMember? (.object members)))).Pairwise (· < ·) := by
  rw [Members.names, List.pairwise_map, List.pairwise_filterMap]
  have hkey : ∀ key ∈ outline (.object members) false, ∀ m,
      keyMember? (.object members) key = some m → m.1 = key := by
    intro key hmem m hm
    obtain ⟨names, hleaf, -, rfl, hname⟩ := exists_mem_leaves_of_keyMember? hd hmem hm
    rw [hname, spell_of_simple (simple_of_mem_leaves hd hsimple hleaf)]
  apply List.Pairwise.imp_of_mem _ (pairwise_pathsOf _)
  intro key other hmem hother hlt m hm o ho
  rw [hkey key hmem m hm, hkey other hother o ho]
  exact hlt

end

/-- An object with simple names is flattened to its leaves, each under its names joined by dots, in
the order of these. -/
theorem ofDocument_perm_leaves {members : Members Value} (hd : (Value.object members).Distinct)
    (hsimple : ∀ name ∈ (Value.object members).fieldNames, SimpleName name) :
    ∃ flat, ofDocument (.object members) = .ok flat ∧
      flat.Perm ((Value.object members).leaves.map fun leaf => (".".intercalate leaf.1, leaf.2)) ∧
      (Members.names flat).Pairwise (· < ·) := by
  obtain ⟨flat, hflat⟩ := exists_ofDocument hd (plainFields_of_simple hsimple)
  have hsorted := pairwise_names_keyMembers hd hsimple
  have hnodup : (Members.names ((outline (.object members) false).filterMap
      (keyMember? (.object members)))).Nodup := hsorted.imp fun hlt => String.ne_of_lt hlt
  have hrow := (ofDocument_eq_ok_iff.mp hflat).2
  rw [Members.putAll_nil_left hnodup] at hrow
  refine ⟨flat, hflat, ?_, hrow ▸ hsorted⟩
  have hdotted : ((Value.object members).leaves.map
      fun leaf => (".".intercalate leaf.1, leaf.2)).Nodup := by
    apply List.Nodup.of_map Prod.fst
    simpa [Function.comp_def] using nodup_dotted_leaves hd hsimple
  rw [hrow, List.perm_ext_iff_of_nodup (List.Nodup.of_map Prod.fst hnodup) hdotted]
  intro m
  rw [mem_keyMembers_iff hd, List.mem_map]
  constructor
  · intro hm
    obtain ⟨names, hleaf, -, hname⟩ := hm
    exact ⟨(names, m.2), hleaf, Prod.ext hname.symm rfl⟩
  · intro hm
    obtain ⟨leaf, hleaf, rfl⟩ := hm
    exact ⟨leaf.1, hleaf, keyed_of_simple (simple_of_mem_leaves hd hsimple hleaf), rfl⟩

/-- Names that an array would take for an index or a slice, and an array whose names are not
simple. -/
def subscripted : Members Value :=
  [("1:2", .object [("-1", .bool true), ("b", .object [])]),
    ("0", .array [.object [("", .object [("#", .null), ("c.d\\", .null)])]])]

example : ofDocument (.object [("b", .object [("-1", .bool true)]), ("0", .array [.null])]) =
    .ok [("0", .array [.null]), ("b.-1", .bool true)] := by cbv

theorem ofDocument_perm_leaves_subscripted :
    (Value.object subscripted).Distinct ∧
      (∀ name ∈ (Value.object subscripted).fieldNames, SimpleName name) ∧
      ∃ flat, ofDocument (.object subscripted) = .ok flat ∧ flat.length = 2 := by
  have hd : (Value.object subscripted).Distinct := by
    simp [subscripted, Value.Distinct, Value.MembersDistinct, Value.ItemsDistinct]
  have hsimple : ∀ name ∈ (Value.object subscripted).fieldNames, SimpleName name := by
    simp only [subscripted, Value.fieldNames, Value.namesOfFields, List.append_nil, List.nil_append,
      List.cons_append, List.forall_mem_cons]
    refine ⟨?_, ?_, ?_, ?_, by simp⟩ <;> exact ⟨by decide, by decide, by decide, by decide⟩
  refine ⟨hd, hsimple, ?_⟩
  obtain ⟨flat, hflat, hperm, -⟩ := ofDocument_perm_leaves hd hsimple
  refine ⟨flat, hflat, ?_⟩
  rw [hperm.length_eq]
  rfl

end JsonKeys.Flat
