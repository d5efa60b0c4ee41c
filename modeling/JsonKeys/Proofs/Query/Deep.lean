import JsonKeys.Proofs.Query.Resolution
import JsonKeys.Proofs.Record.DeepFlat

/-!
What the depth of outlines has to do with answers. Apart from key numbers and the outline itself
there is nothing: documents, profiles and lengths do not depend on it, keys that are names are found
without an outline, and records are flattened along either outline to the same members.
-/
namespace JsonKeys

/-- The key expressions of a form. A `0` for every key of flat records is none. -/
def Form.keyTexts : Form → List String
  | .flat chosen => (if chosen = some "0" then none else chosen).toList
  | .table root start => root :: start.toList
  | _ => []

/-- No key expression of the form has a key number or a range of them. -/
def Form.NumberFree (form : Form) (quote : Char) : Prop :=
  ∀ text ∈ form.keyTexts, KeyExpr.usesNumbers text quote = false

instance (form : Form) (quote : Char) : Decidable (form.NumberFree quote) :=
  inferInstanceAs (Decidable (∀ text ∈ form.keyTexts, KeyExpr.usesNumbers text quote = false))

namespace Records

theorem result_traverse (change : Nat → Value → Logged Value) (records : Records) :
    (records.traverse change).result =
      records.traverse fun item record => (change item record).result := by
  cases records with
  | many records =>
    simp only [traverse, Logged.result_bind, Logged.result_mapM, Logged.result_pure]
    rfl
  | one record =>
    simp only [traverse, Logged.result_bind, Logged.result_pure]
    rfl

theorem traverse_congr {ε : Type} {change other : Nat → Value → Except ε Value} {records : Records}
    (h : ∀ record ∈ records.toList, ∀ item, change item record = other item record) :
    records.traverse change = records.traverse other := by
  cases records with
  | many records =>
    have hmap : ∀ r ∈ records.zipIdx, change (r.2 + 1) r.1 = other (r.2 + 1) r.1 :=
      fun r hr => h r.1 (List.fst_mem_of_mem_zipIdx hr) (r.2 + 1)
    rw [traverse, traverse, mapM_congr hmap]
  | one record => rw [traverse, traverse, h record List.mem_cons_self]

end Records

namespace Query

variable {options : Options}

/-- Names are the same paths whatever an outline would be. -/
theorem keyPaths_deep {text : String} (h : KeyExpr.usesNumbers text options.quote = false)
    (document : Value) (deep : Bool) :
    keyPaths text (.ofDocument document) { options with deep := deep } =
      keyPaths text (.ofDocument document) options := by
  simp only [keyPaths, KeyExpr.paths, h]
  rfl

theorem keyPaths?_deep {text : Option String}
    (h : ∀ t ∈ text.toList, KeyExpr.usesNumbers t options.quote = false) (document : Value)
    (deep : Bool) :
    keyPaths? text (.ofDocument document) { options with deep := deep } =
      keyPaths? text (.ofDocument document) options := by
  cases text with
  | none => rfl
  | some text => rw [keyPaths?, keyPaths?, keyPaths_deep (h text List.mem_cons_self)]

/-- A table is made along plain outlines in any case. -/
theorem tableRows_deep {root : String} {start : Option String}
    (h : (Form.table root start).NumberFree options.quote) (document : Value) (deep : Bool) :
    tableRows document root start { options with deep := deep } =
      tableRows document root start options := by
  have hroot := h root List.mem_cons_self
  have hstart : ∀ t ∈ start.toList, KeyExpr.usesNumbers t options.quote = false :=
    fun t ht => h t (List.mem_cons_of_mem _ ht)
  simp only [tableRows, keyPaths_deep hroot, keyPaths?_deep hstart]

/-- Records that flatten to the same members along either outline do so in a document. -/
theorem result_flat_deep {document : Value} {keys : Option String}
    (hnumbers : (Form.flat keys).NumberFree options.quote)
    (hflat : ∀ record ∈ document.records, record.FlattensAlike) :
    (flat document keys { options with deep := true }).result =
      (flat document keys { options with deep := false }).result := by
  have hrecord : ∀ chosen, ∀ record ∈ (Records.ofValue document false).toList, ∀ item,
      (flatRecord chosen { options with deep := true } item record).result =
        (flatRecord chosen { options with deep := false } item record).result := by
    intro chosen record hmem item
    cases chosen with
    | some paths => rfl
    | none =>
      obtain ⟨flat, hdeep, hfirst⟩ := hflat record hmem item
      simp only [flatRecord, Logged.result_bind, Logged.result_lift, result_noteOutline, ok_bind,
        hdeep, hfirst]
  simp only [flat, Logged.result_bind, keyPaths?_deep hnumbers, Records.result_traverse]
  refine bind_congr fun chosen => ?_
  rw [Records.traverse_congr (hrecord chosen)]

/-- Whatever is shown but the outline itself is shown the same. -/
theorem result_present_deep {document : Value} {form : Form} (hform : form ≠ .keys)
    (hnumbers : form.NumberFree options.quote)
    (hflat : ∀ record ∈ document.records, record.FlattensAlike) :
    (present document form { options with deep := true }).result =
      (present document form { options with deep := false }).result := by
  cases form with
  | keys => exact absurd rfl hform
  | document | profiles | lengths => rfl
  | flat keys => simp only [present, Logged.result_bind, result_flat_deep hnumbers hflat]
  | table root start => simp only [present, tableRows_deep hnumbers]

end Query

namespace Value

theorem Distinct.of_mem_records {document record : Value} (h : document.Distinct)
    (hrecord : record ∈ document.records) : record.Distinct := by
  cases document with
  | array items => exact distinct_array_iff.mp h record hrecord
  | _ => exact List.mem_singleton.mp hrecord ▸ h

end Value

namespace Query

/-- A query that edits nothing, takes no new root, asks for no outline and uses no key numbers has
the same answer whether outlines are deep or not, provided that the records are no arrays and that
no member name is empty or ends in a backslash. The records are then flattened to the same members
in the same order. -/
theorem answer_deep {query : Query} {document : Value} {options : Options} (hd : document.Distinct)
    (hkinds : ∀ record ∈ document.records, record.kind ≠ .array)
    (hnames : ∀ name ∈ document.memberNames, name ≠ "" ∧ ¬EndsInBackslash name)
    (hroot : query.root = none) (hedits : query.editsRecords = false) (hform : query.form ≠ .keys)
    (hnumbers : query.form.NumberFree options.quote) :
    (query.answer document { options with deep := true }).result =
      (query.answer document { options with deep := false }).result ∧
    ∀ record ∈ document.records, record.FlattensAlike := by
  have hflat : ∀ record ∈ document.records, record.FlattensAlike := by
    intro record hrecord
    apply Value.flattensAlike (hkinds record hrecord) (hd.of_mem_records hrecord)
    apply Value.plainFields_of_fieldNames
    intro name hname
    exact hnames name (Value.memberNames_subset_of_mem_records hrecord
      (record.fieldNames_subset_memberNames hname))
  have hshown : ∀ options : Options, (query.answer document options).result =
      (present document query.form options).result := by
    intro options
    rw [result_answer_eq, rooted, hroot, Logged.result_pure, ok_bind, answerFrom, hedits]
    rfl
  refine ⟨?_, hflat⟩
  rw [hshown, hshown]
  exact result_present_deep hform hnumbers hflat

/-- The second element of `k1` has a member of its own, which only the deep outline has a key
for. -/
def hidden : Value :=
  .object [("#", .null), ("k1", .array [.null, .object [("k2", .null)]])]

theorem answer_deep_hidden :
    let document := Value.array [hidden, .null]
    let query : Query := { form := .flat (some "0") }
    document.Distinct ∧ (∀ record ∈ document.records, record.kind ≠ .array) ∧
    (∀ name ∈ document.memberNames, name ≠ "" ∧ ¬EndsInBackslash name) ∧
    query.root = none ∧ query.editsRecords = false ∧ query.form ≠ .keys ∧
    query.form.NumberFree '"' ∧ outline hidden true ≠ outline hidden false ∧ hidden.FlattensAlike ∧
    (query.answer document { deep := true }).result = (query.answer document {}).result := by
  intro document query
  have hd : document.Distinct := by
    simp [document, hidden, Value.Distinct, Value.MembersDistinct, Value.ItemsDistinct]
  have hkinds : ∀ record ∈ document.records, record.kind ≠ .array := by
    simp [document, hidden, Value.records, Records.ofValue, Records.toList, Value.kind]
  have hnames : ∀ name ∈ document.memberNames, name ≠ "" ∧ ¬EndsInBackslash name := by
    simp [document, hidden, Value.memberNames, Value.itemNames, Value.namesWithin, EndsInBackslash]
  have hdiffer : outline hidden true ≠ outline hidden false := by
    have hdeep : outline hidden true = ["#", "k1", "k1.#", "k1.#.k2"] := by cbv
    have hfirst : outline hidden false = ["#", "k1", "k1.#"] := by cbv
    rw [hdeep, hfirst]
    decide
  have hform : query.form ≠ .keys := by decide
  have hnumbers : query.form.NumberFree '"' := by decide
  obtain ⟨hsame, halike⟩ := @answer_deep query document {} hd hkinds hnames rfl rfl hform hnumbers
  exact ⟨hd, hkinds, hnames, rfl, rfl, hform, hnumbers, hdiffer,
    halike hidden List.mem_cons_self, hsame⟩

end Query

end JsonKeys
