import JsonKeys.Proofs.Query.Resolution
import JsonKeys.Proofs.Record.Uniform

/-!
Queries without key numbers. They have no need of the whole document, and edit each record of an
array as if it were alone.
-/
namespace JsonKeys

namespace KeyExpr

/-- The paths of an expression whose tokens are names. -/
def namedPaths (text : String) (quote : Char) : List Path := (tokens text quote).map Path.ofText

theorem listedPaths_of_names {text : String} {quote : Char} (h : usesNumbers text quote = false)
    (keys : List String) : listedPaths keys quote text = .ok (namedPaths text quote) :=
  tokenListPaths_of_names (by simpa [usesNumbers] using h)

theorem listedPaths?_of_names {text : Option String} {quote : Char}
    (h : ∀ t ∈ text.toList, usesNumbers t quote = false) (keys : List String) :
    listedPaths? keys quote text = .ok (text.map (namedPaths · quote)) := by
  cases text with
  | none => rfl
  | some text =>
    rw [listedPaths?, listedPaths_of_names (h text List.mem_cons_self), ok_bind]
    rfl

end KeyExpr

theorem Records.traverse_ok {ε : Type} (records : Records) :
    records.traverse (fun _ record => (Except.ok record : Except ε Value)) = .ok records := by
  cases records with
  | many records =>
    have hkeep : ∀ r ∈ records.zipIdx, (Except.ok r.1 : Except ε Value) = .ok r.1 := fun _ _ => rfl
    rw [traverse, mapM_eq_ok hkeep, ok_bind, List.zipIdx_map_fst]
    rfl
  | one record => rfl

namespace Query

/-- The key expressions of the edits. -/
def keyTexts (query : Query) : List String :=
  query.get.toList ++ query.defaults.map Prod.fst ++ query.set.map Prod.fst ++ query.del.toList

/-- No key expression of the edits has a key number or a range of them. -/
def NumberFree (query : Query) (quote : Char) : Prop :=
  ∀ text ∈ query.keyTexts, KeyExpr.usesNumbers text quote = false

instance (query : Query) (quote : Char) : Decidable (query.NumberFree quote) :=
  inferInstanceAs (Decidable (∀ text ∈ query.keyTexts, KeyExpr.usesNumbers text quote = false))

def namedPairs (pairs : List (String × String)) (quote : Char) : List (Path × Value) :=
  pairs.flatMap fun pair =>
    (KeyExpr.namedPaths pair.1 quote).map fun path => (path, KeyExpr.argumentValue pair.2)

/-- The edits of a query all of whose keys are names. -/
def namedEdits (query : Query) (quote : Char) : Edits where
  get := query.get.map (KeyExpr.namedPaths · quote)
  defaults := namedPairs query.defaults quote
  set := namedPairs query.set quote
  del := query.del.map (KeyExpr.namedPaths · quote)

theorem listedPairs_of_names {pairs : List (String × String)} {quote : Char}
    (h : ∀ text ∈ pairs.map Prod.fst, KeyExpr.usesNumbers text quote = false) (keys : List String) :
    KeyExpr.listedPairs keys quote pairs = .ok (namedPairs pairs quote) := by
  have hone : ∀ pair ∈ pairs, (do
      let paths ← KeyExpr.listedPaths keys quote pair.1
      return paths.map fun path => (path, KeyExpr.argumentValue pair.2)) =
      .ok ((KeyExpr.namedPaths pair.1 quote).map
        fun path => (path, KeyExpr.argumentValue pair.2)) := by
    intro pair hpair
    rw [KeyExpr.listedPaths_of_names (h _ (List.mem_map_of_mem hpair)), ok_bind]
    rfl
  rw [KeyExpr.listedPairs, mapM_eq_ok hone, ok_bind, ← List.flatMap_def]
  rfl

/-- Names stand for the same edits whatever the keys of the document are. -/
theorem listedEdits_of_names {query : Query} {quote : Char} (h : query.NumberFree quote)
    (keys : List String) : query.listedEdits keys quote = .ok (query.namedEdits quote) := by
  simp only [NumberFree, keyTexts, List.forall_mem_append] at h
  obtain ⟨⟨⟨hget, hdefaults⟩, hset⟩, hdel⟩ := h
  rw [listedEdits, KeyExpr.listedPaths?_of_names hget, listedPairs_of_names hdefaults,
    listedPairs_of_names hset, KeyExpr.listedPaths?_of_names hdel]
  rfl

theorem result_edit {query : Query} {options : Options} (h : query.NumberFree options.quote)
    (document : Value) :
    (query.edit document options).result = (do
      let edited ← (Records.ofValue document options.whole).traverse
        ((query.namedEdits options.quote).apply options)
      return edited.toValue) := by
  rw [result_edit_eq, result_resolve_eq, listedEdits_of_names h]
  rfl

theorem apply_namedEdits_of_not_editsRecords {query : Query} (h : query.editsRecords = false)
    (quote : Char) (options : Options) (item : Nat) (record : Value) :
    (query.namedEdits quote).apply options item record = .ok record := by
  simp only [editsRecords, Bool.or_eq_false_iff, Option.isSome_eq_false_iff,
    Option.isNone_iff_eq_none, Bool.not_eq_eq_eq_not, Bool.not_false, List.isEmpty_iff] at h
  obtain ⟨⟨⟨hget, hdefaults⟩, hset⟩, hdel⟩ := h
  simp only [namedEdits, hget, hdefaults, hset, hdel]
  rfl

section

variable {query : Query} {options : Options} (hroot : query.root = none)
  (hform : query.form = .document) (hnames : query.NumberFree options.quote)

include hroot hform hnames

theorem result_answer (document : Value) : (query.answer document options).result = (do
    let edited ← (Records.ofValue document options.whole).traverse
      ((query.namedEdits options.quote).apply options)
    return .document edited.toValue) := by
  simp only [answer, hroot, hform, pure_bind, present]
  cases hedits : query.editsRecords with
  | true =>
    rw [if_pos rfl, Logged.result_bind, result_edit hnames, bind_assoc]
    rfl
  | false =>
    have hsame : (query.namedEdits options.quote).apply options = fun _ record => .ok record := by
      funext item record
      exact apply_namedEdits_of_not_editsRecords hedits _ _ _ _
    rw [hsame, Records.traverse_ok, ok_bind, Records.toValue_ofValue]
    rfl

/-- The only record of a document taken whole. -/
theorem result_answer_whole (record : Value) :
    (query.answer record { options with whole := true }).result = (do
      let edited ← (query.namedEdits options.quote).apply options 1 record
      return .document edited) := by
  have hone : Records.ofValue record true = .one record := by
    cases record <;> rfl
  have hnamed : query.NumberFree { options with whole := true }.quote := hnames
  rw [result_answer hroot hform hnamed, hone, Records.traverse, bind_assoc]
  rfl

theorem result_answer_array (hwhole : options.whole = false) (records : List Value) :
    (query.answer (.array records) options).result = (do
      let edited ← records.zipIdx.mapM fun r =>
        (query.namedEdits options.quote).apply options (r.2 + 1) r.1
      return .document (.array edited)) := by
  rw [result_answer hroot hform hnames, hwhole]
  rw [Records.ofValue, Records.traverse, bind_assoc]
  rfl

end

/-- Without key numbers an array is answered record by record. The answer holds what each record
comes to by itself. If some cannot be answered, the failure is that of the first of them, under its
number. -/
theorem answer_array {query : Query} {options : Options} (hroot : query.root = none)
    (hform : query.form = .document) (hnames : query.NumberFree options.quote)
    (hwhole : options.whole = false) (records : List Value) :
    let alone := fun record => (query.answer record { options with whole := true }).result
    let batch := (query.answer (.array records) options).result
    ((∃ a, batch = .ok a) ↔ ∀ record ∈ records, ∃ a, alone record = .ok a) ∧
    ((∃ values, List.Forall₂ (fun record v => alone record = .ok (.document v)) records values ∧
        batch = .ok (.document (.array values))) ∨
      ∃ before record after fault, ∃ origin : Origin, records = before ++ record :: after ∧
        (∀ other ∈ before, ∃ a, alone other = .ok a) ∧
        alone record = .error (.fault fault (some { origin with item := 1 })) ∧
        batch = .error (.fault fault (some { origin with item := before.length + 1 }))) := by
  intro alone batch
  have halone : ∀ record, alone record = (query.namedEdits options.quote).apply options 1 record >>=
      fun v => .ok (.document v) := result_answer_whole hroot hform hnames
  have hbatch := result_answer_array hroot hform hnames hwhole records
  change batch = _ at hbatch
  have hanswered : ∀ record v, (query.namedEdits options.quote).apply options 1 record = .ok v →
      alone record = .ok (.document v) := by
    intro record v hv
    rw [halone, hv, ok_bind]
  -- a record alone has the number 1, and the edits of an array start to count there
  have hruns :=
    mapM_zipIdx_of_uniform ((query.namedEdits options.quote).uniform_apply options) records 0
  rcases hruns with ⟨values, hall, hvalues⟩ |
    ⟨before, record, after, fault, origin, rfl, hok, hr, hfirst⟩
  · have heach := hall.imp hanswered
    rw [hvalues, ok_bind] at hbatch
    refine ⟨⟨fun _ => ?_, fun _ => ⟨_, hbatch⟩⟩, .inl ⟨values, heach, hbatch⟩⟩
    have hboth := heach.imp fun record v h => And.intro (⟨_, h⟩ : ∃ a, alone record = .ok a) h
    exact ((List.forall₂_and_left _ _).mp hboth).1
  · have hfail : alone record = .error (.fault fault (some { origin with item := 1 })) := by
      rw [halone, hr, error_bind]
    rw [hfirst, error_bind, Nat.zero_add] at hbatch
    refine ⟨⟨?_, ?_⟩, .inr ⟨before, record, after, fault, origin, rfl, ?_, hfail, hbatch⟩⟩
    · rintro ⟨a, ha⟩
      rw [hbatch] at ha
      cases ha
    · intro hall
      obtain ⟨a, ha⟩ := hall record (by simp)
      rw [hfail] at ha
      cases ha
    · intro other hother
      obtain ⟨v, hv⟩ := hok other hother
      exact ⟨_, hanswered other v hv⟩

/-- One edit of every kind. -/
def mending : Query where
  get := some "a, b"
  defaults := [("d", "true")]
  set := [("b.c", "null")]
  del := some "a"

/-- In the second record an array stands where the edits want an object. -/
def mixed : List Value := [.object [("a", .null), ("b", .object [])], .array [.object []], .null]

example : (mending.answer (.array (mixed.take 1)) {}).result = .ok (.document
    (.array [.object [("b", .object [("c", .null)]), ("d", .bool true)]])) := by rfl

theorem answer_array_mixed : mending.NumberFree '"' ∧
    ∃ failure, (mending.answer (.array mixed) {}).result = .error failure ∧
      failure.origin.map Origin.item = some 2 := by
  have hnames : mending.NumberFree '"' := by decide
  have hgood : ∃ a, (mending.answer (.object [("a", .null), ("b", .object [])])
      { whole := true }).result = .ok a := ⟨_, rfl⟩
  have hbad : ∃ e, (mending.answer (.array [.object []]) { whole := true }).result = .error e :=
    ⟨_, rfl⟩
  obtain ⟨a, ha⟩ := hgood
  obtain ⟨e, he⟩ := hbad
  refine ⟨hnames, ?_⟩
  obtain ⟨-, ⟨values, hall, -⟩ | ⟨before, record, after, fault, origin, hsplit, hok, hr, hfirst⟩⟩ :=
    @answer_array mending {} rfl rfl hnames rfl mixed
  · cases hall with
    | cons _ hrest =>
      cases hrest with
      | cons hv _ => cases he.symm.trans hv
  · rcases before with _ | ⟨first, _ | ⟨second, before⟩⟩
    · obtain ⟨rfl, -⟩ := List.cons.inj hsplit
      cases ha.symm.trans hr
    · exact ⟨_, hfirst, rfl⟩
    · obtain ⟨-, hrest⟩ := List.cons.inj hsplit
      obtain ⟨rfl, -⟩ := List.cons.inj hrest
      obtain ⟨v, hv⟩ := hok _ (List.mem_cons_of_mem _ List.mem_cons_self)
      cases he.symm.trans hv

end Query

end JsonKeys
