import JsonKeys.Proofs.Query.Halting
import JsonKeys.Proofs.Query.Table

/-!
Which failures of a query have an origin. All do in which a fault was met but one: that nothing is
at the root of a table.
-/
namespace JsonKeys

open KeyExpr (listedPaths listedPaths?)

variable {α β : Type}

/-- The run does not end with a fault that nothing has taken up. -/
def Traces (run : Except Failure α) : Prop := ∀ fault, run ≠ .error (.fault fault none)

namespace Traces

theorem ok (a : α) : Traces (.ok a) := nofun

theorem ofUnlisted (run : Except KeyExpr.Unlisted α) : Traces (run.mapError .ofUnlisted) := by
  intro fault h
  obtain ⟨unlisted, -, hfailure⟩ := mapError_eq_error_iff.mp h
  cases hfailure

theorem atOrigin (origin : Origin) (run : Except Fault α) :
    Traces (JsonKeys.atOrigin origin run) := by
  intro fault h
  obtain ⟨met, -, hfailure⟩ := atOrigin_eq_error_iff.mp h
  cases hfailure

theorem bind {run : Except Failure α} {next : α → Except Failure β} (h : Traces run)
    (hnext : ∀ a, Traces (next a)) : Traces (run >>= next) := by
  intro fault hfail
  rcases bind_eq_error_iff.mp hfail with hrun | ⟨a, -, hrest⟩
  · exact h fault hrun
  · exact hnext a fault hrest

theorem mapM {change : α → Except Failure β} {as : List α} (h : ∀ a ∈ as, Traces (change a)) :
    Traces (as.mapM change) := by
  induction as with
  | nil => exact .ok []
  | cons a as ih =>
    obtain ⟨ha, has⟩ := List.forall_mem_cons.mp h
    rw [List.mapM_cons]
    exact ha.bind fun b => (ih has).bind fun bs => .ok _

theorem traverse {change : Nat → Value → Except Failure Value}
    (h : ∀ item record, Traces (change item record)) (records : Records) :
    Traces (records.traverse change) := by
  cases records with
  | many records => exact (mapM fun r _ => h (r.2 + 1) r.1).bind fun _ => .ok _
  | one record => exact (h 1 record).bind fun _ => .ok _

/-- Where the first part traces its faults, one that is left was met in the second. -/
theorem bind_eq_error_iff {run : Except Failure α} {next : α → Except Failure β} (h : Traces run)
    {fault : Fault} : run >>= next = .error (.fault fault none) ↔
      ∃ a, run = .ok a ∧ next a = .error (.fault fault none) := by
  rw [JsonKeys.bind_eq_error_iff]
  exact or_iff_right (h fault)

/-- Where the second part traces its faults, one that is left was met in the first. -/
theorem bind_eq_error_iff_left {run : Except Failure α} {next : α → Except Failure β}
    (h : ∀ a, Traces (next a)) {fault : Fault} :
    run >>= next = .error (.fault fault none) ↔ run = .error (.fault fault none) := by
  rw [JsonKeys.bind_eq_error_iff]
  refine or_iff_left ?_
  rintro ⟨a, -, hrest⟩
  exact h a fault hrest

end Traces

theorem Flat.traces_addAll (document : Value) (paths : List Path) (item : Nat) (flat : Flat) :
    Traces (addAll document paths item flat) := by
  intro fault h
  obtain ⟨met, origin, hfailure, -⟩ := addAll_eq_error h
  cases hfailure

namespace Table

theorem traces_rows (table : Table) : Traces (table.rows.mapM id) := by
  apply Traces.mapM
  intro row hrow
  obtain ⟨r, -, rfl⟩ := List.mem_map.mp hrow
  exact Flat.traces_addAll _ _ _ _

/-- A table takes up every fault but that of its root. -/
theorem ofDocument_eq_error_iff {document : Value} {root : Path} {start : List Path}
    {fault : Fault} :
    ofDocument document root start = .error (.fault fault none) ↔
      (∃ flat, Flat.ofPaths document start 0 = .ok flat) ∧ document.get root = .error fault := by
  have hstart : Traces (Flat.ofPaths document start 0) := Flat.traces_addAll document start 0 []
  rw [ofDocument, hstart.bind_eq_error_iff]
  cases document.get root with
  | ok v => simp [pure, Except.pure]
  | error met => simp

end Table

namespace Query

variable (query : Query) (document : Value) (options : Options)

theorem traces_rooted : Traces (query.rooted document options).result := by
  unfold rooted
  cases query.root with
  | none => exact .ok document
  | some text =>
    simp only [enterRoot, Logged.result_bind, result_keyPaths]
    refine (Traces.ofUnlisted _).bind fun paths => ?_
    cases paths with
    | nil => exact .ok document
    | cons path others =>
      simp only [Logged.result_bind, Logged.result_lift, Logged.result_note, ok_bind]
      exact .atOrigin _ _

theorem traces_edit : Traces (query.edit document options).result := by
  intro fault h
  obtain ⟨_, _, _, _, origin, met, -, -, -, hfailure, -⟩ := edit_halts h nofun
  cases hfailure

theorem traces_flat (keys : Option String) : Traces (flat document keys options).result := by
  simp only [flat, Logged.result_bind, Records.result_traverse, result_keyPaths?,
    Logged.result_pure]
  refine (Traces.ofUnlisted _).bind fun chosen => ?_
  refine Traces.bind (Traces.traverse ?_ _) fun records => .ok _
  intro item record
  cases chosen with
  | some paths =>
    simp only [flatRecord, Logged.result_bind, Logged.result_lift, Logged.result_pure]
    exact (Flat.traces_addAll record paths item []).bind fun flat => .ok _
  | none =>
    simp only [flatRecord, Logged.result_bind, Logged.result_lift, Logged.result_pure,
      result_noteOutline, ok_bind]
    exact (Flat.traces_addAll record _ item []).bind fun flat => .ok _

/-- The document as it is shown in the end: what is at the root asked for, with its records
edited. -/
def shown : Except Failure Value :=
  (query.rooted document options).result >>= fun root =>
    if query.editsRecords then (query.edit root options).result else .ok root

theorem traces_shown : Traces (query.shown document options) := by
  refine (query.traces_rooted document options).bind fun root => ?_
  split
  · exact query.traces_edit root options
  · exact .ok root

theorem result_answer_eq_shown : (query.answer document options).result =
    query.shown document options >>= fun v => (present v query.form options).result := by
  rw [result_answer_eq, shown, bind_assoc]
  rfl

/-- The query asks for a table, and nothing is at its root in the document shown, although all is
there that the rows begin with. -/
def LacksTableRoot (fault : Fault) : Prop :=
  ∃ text start v root begun flat, query.form = .table text start ∧
    query.shown document options = .ok v ∧
    listedPaths (outline v options.deep) options.quote text = .ok root ∧
    listedPaths? (outline v options.deep) options.quote start = .ok begun ∧
    Flat.ofPaths v (begun.getD []) 0 = .ok flat ∧ v.get (root.headD []) = .error fault

variable {options}

/-- A table leaves only a fault at its root to whoever asked for it. -/
theorem tableRows_eq_error_iff {v : Value} {text : String} {start : Option String} {fault : Fault} :
    (tableRows v text start options).result = .error (.fault fault none) ↔
      ∃ root begun flat, listedPaths (outline v options.deep) options.quote text = .ok root ∧
        listedPaths? (outline v options.deep) options.quote start = .ok begun ∧
        Flat.ofPaths v (begun.getD []) 0 = .ok flat ∧ v.get (root.headD []) = .error fault := by
  have hok : ∀ {γ : Type} {run : Except KeyExpr.Unlisted γ} {a : γ},
      run.mapError Failure.ofUnlisted = .ok a ↔ run = .ok a := by
    intro γ run a
    cases run <;> simp
  have hrows : ∀ table : Table, Traces (table.rows.mapM id >>= fun rows =>
      (Except.ok (Value.array (rows.map .object)) : Except Failure Value)) :=
    fun table => table.traces_rows.bind fun rows => .ok _
  rw [result_tableRows, (Traces.ofUnlisted _).bind_eq_error_iff]
  simp only [hok]
  constructor
  · rintro ⟨root, hroot, hrest⟩
    obtain ⟨begun, hbegun, hrest⟩ := (Traces.ofUnlisted _).bind_eq_error_iff.mp hrest
    obtain ⟨⟨flat, hflat⟩, hget⟩ :=
      Table.ofDocument_eq_error_iff.mp ((Traces.bind_eq_error_iff_left hrows).mp hrest)
    exact ⟨root, begun, flat, hroot, hok.mp hbegun, hflat, hget⟩
  · rintro ⟨root, begun, flat, hroot, hbegun, hflat, hget⟩
    refine ⟨root, hroot, (Traces.ofUnlisted _).bind_eq_error_iff.mpr ⟨begun, hok.mpr hbegun, ?_⟩⟩
    exact (Traces.bind_eq_error_iff_left hrows).mpr
      (Table.ofDocument_eq_error_iff.mpr ⟨⟨flat, hflat⟩, hget⟩)

/-- A fault that a query fails with has no origin exactly if it was met at the root of a table.
Whatever else the query does, to find a new root, to edit records or to show them flattened, tells
where the fault was met. -/
theorem answer_fault_without_origin_iff (query : Query) (document : Value) (options : Options)
    (fault : Fault) : (query.answer document options).result = .error (.fault fault none) ↔
      query.LacksTableRoot document options fault := by
  rw [result_answer_eq_shown, (query.traces_shown document options).bind_eq_error_iff]
  unfold LacksTableRoot
  cases hform : query.form with
  | document | keys | profiles | lengths =>
    constructor
    · rintro ⟨v, -, hv⟩
      cases hv
    · rintro ⟨_, _, _, _, _, _, hform, -⟩
      cases hform
  | flat keys =>
    constructor
    · rintro ⟨v, -, hv⟩
      simp only [present, Logged.result_bind, Logged.result_pure] at hv
      exact absurd hv ((traces_flat v options keys).bind (fun w => .ok _) fault)
    · rintro ⟨_, _, _, _, _, _, hform, -⟩
      cases hform
  | table text start =>
    have hshow : ∀ v, (present v (.table text start) options).result = .error (.fault fault none) ↔
        (tableRows v text start options).result = .error (.fault fault none) := by
      intro v
      simp only [present, Logged.result_bind, Logged.result_pure]
      exact Traces.bind_eq_error_iff_left fun w => .ok _
    simp only [hshow, tableRows_eq_error_iff]
    constructor
    · rintro ⟨v, hv, root, begun, flat, hrest⟩
      exact ⟨text, start, v, root, begun, flat, rfl, hv, hrest⟩
    · rintro ⟨_, _, v, root, begun, flat, hform, hv, hrest⟩
      obtain ⟨rfl, rfl⟩ := Form.table.inj hform
      exact ⟨v, hv, root, begun, flat, hrest⟩

/-- A document without a member `b`. -/
def withoutB : Value := .object [("a", .array [])]

/-- The same member is missing as the root of a table and as a new root, but only the second failure
tells where. -/
theorem answer_fault_without_origin_iff_withoutB :
    (answer { form := .table "b" none } withoutB {}).result =
      .error (.fault (.missingMember "b") none) ∧
    (answer { root := some "b" } withoutB {}).result = .error (.fault (.missingMember "b")
      (some ⟨.rootkey, 0, [.name "b"], [[.name "b"]], withoutB⟩)) ∧
    ¬LacksTableRoot { root := some "b" } withoutB {} (.missingMember "b") := by
  have hlacks : LacksTableRoot { form := .table "b" none } withoutB {} (.missingMember "b") :=
    ⟨"b", none, withoutB, [[.name "b"]], none, [], rfl, rfl, rfl, rfl, rfl, rfl⟩
  have hrooted : (answer { root := some "b" } withoutB {}).result =
      .error (.fault (.missingMember "b")
      (some ⟨.rootkey, 0, [.name "b"], [[.name "b"]], withoutB⟩)) := by rfl
  refine ⟨(answer_fault_without_origin_iff _ _ _ _).mpr hlacks, hrooted, ?_⟩
  rw [← answer_fault_without_origin_iff, hrooted]
  nofun

end Query

end JsonKeys
