import JsonKeys.Proofs.Place.Checked
import JsonKeys.Proofs.Place.Splice
import JsonKeys.Proofs.Value.Short

/-!
Checked access meets no trap. If every array of a document is shorter than `2 ^ 63` then every sum
is a word, every position lies in its array and every step fits its container, so that checked
access is access.
-/
namespace JsonKeys

/-- What a segment reads as and the place that it stands for, seen together. -/
inductive Segment.Reads (segment : Segment) : Value → Prop
  | mismatch {v : Value} (fault : Fault) (hstep : segment.step v = .error fault)
      (hplace : segment.place v = .error fault) : Reads segment v
  | member (members : Members Value) (name : String)
      (hstep : segment.step (.object members) = .ok (.member name))
      (hplace : segment.place (.object members) = .ok (.member members name)) :
      Reads segment (.object members)
  | index (items : List Value) (i : Int64) (hstep : segment.step (.array items) = .ok (.index i))
      (hplace : segment.place (.array items) =
        (do return .element items (← indexPosition i items.length))) :
      Reads segment (.array items)
  | slice (items : List Value) (s : Slice) (hstep : segment.step (.array items) = .ok (.slice s))
      (hplace : segment.place (.array items) = .ok (.slice items s)) : Reads segment (.array items)

theorem Segment.reads (segment : Segment) (v : Value) : segment.Reads v := by
  cases v with
  | object members =>
    cases segment with
    | name text => exact .member members text rfl rfl
    | index i => exact .mismatch _ rfl rfl
    | slice s => exact .mismatch _ rfl rfl
  | array items =>
    cases hsub : segment.subscript? with
    | none => exact .mismatch _ (by rw [step, hsub]) (by rw [place, hsub])
    | some subscript =>
      cases subscript with
      | index i => exact .index items i (by rw [step, hsub]) (by rw [place, hsub])
      | slice s => exact .slice items s (by rw [step, hsub]) (by rw [place, hsub])
  | _ => exact .mismatch _ rfl rfl

theorem indexPosition_ofNat {len : Nat} (hlen : len < 0x8000000000000000) (k : Fin len) :
    indexPosition (Int64.ofNat k) len = .ok k := by
  have hword : (Int64.ofNat k).toInt = k := Int64.toInt_ofNat_of_lt (by omega)
  have hneg : ¬(k : Int) < 0 := by omega
  have hmem : 0 ≤ (k : Int) ∧ (k : Int) < len := by omega
  simp only [indexPosition, hword, hneg, if_false, hmem, and_self, dite_true, Int.toNat_natCast]

theorem Slice.exists_words {s : Slice} {len : Nat} (hlen : len < 0x8000000000000000)
    {ks : List (Fin len)} (hks : s.positions? len = some ks) :
    ∃ words, s.wordPositions len = .ok (some words) ∧ words.map UInt64.toNat = ks.map Fin.val := by
  obtain ⟨h0, hprogression⟩ := progression_of_positions? hks
  obtain ⟨words, hwords, hscan⟩ := exists_wordPositions hlen h0
  exact ⟨words, hwords, hscan.unique hprogression⟩

theorem Slice.bounds_of_span? {s : Slice} {len start stop : Nat}
    (h : s.span? len = some (start, stop)) :
    start ≤ stop ∧ stop ≤ len := by
  have h1 := stride_of_span? h
  have hne : s.positions? len ≠ none := by
    intro hnone
    have h0 := positions?_eq_none_iff.mp hnone
    omega
  obtain ⟨ks, hks⟩ := Option.ne_none_iff_exists'.mp hne
  obtain ⟨hle, hstop, -⟩ := stretch_of_span? hks h
  exact ⟨hle, hstop⟩

namespace Checked

variable {α β : Type}

@[simp] theorem ofFault_ok (a : α) : ofFault (.ok a) = .ok a := rfl

@[simp] theorem ofFault_error (f : Fault) : ofFault (.error f : Except Fault α) = fault f := rfl

@[simp] theorem ofWord_ok (a : α) : ofWord (.ok a) = .ok a := rfl

@[simp] theorem fault_bind (f : Fault) (g : α → Checked β) : (fault f >>= g) = fault f := rfl

theorem ofFault_bind (x : Except Fault α) (f : α → Except Fault β) :
    ofFault (x >>= f) = ofFault x >>= fun a => ofFault (f a) := mapError_bind x f Halt.fault

theorem item_fin (items : List α) (k : Fin items.length) : item items k = .ok (items.get k) := by
  rw [item, List.getElem?_eq_getElem k.isLt]
  rfl

theorem exists_fromEnd (i : Int64) {len : Nat} (hlen : len < 0x8000000000000000) :
    ∃ k, fromEnd i len = .ok k ∧ k.toInt = if i.toInt < 0 then i.toInt + len else i.toInt := by
  have hword : (Int64.ofNat len).toInt = len := Int64.toInt_ofNat_of_lt hlen
  have hlo := i.le_toInt
  unfold fromEnd Word.add
  simp only [Int64.lt_iff_toInt_lt, Int64.toInt_zero, hword]
  split
  · next hneg =>
    obtain ⟨k, hsum, hvalue⟩ := Word.exists_ofInt (n := i.toInt + len) (by omega) (by omega)
    exact ⟨k, by rw [hsum]; rfl, hvalue⟩
  · exact ⟨i, rfl, rfl⟩

theorem indexPosition_eq (i : Int64) {len : Nat} (hlen : len < 0x8000000000000000) :
    indexPosition i len = ofFault (JsonKeys.indexPosition i len) >>= fun k => .ok k.val := by
  obtain ⟨k, hk, hvalue⟩ := exists_fromEnd i hlen
  have hrange : (0 ≤ k ∧ k < Int64.ofNat len) ↔ 0 ≤ k.toInt ∧ k.toInt < len := by
    rw [Int64.le_iff_toInt_le, Int64.lt_iff_toInt_lt, Int64.toInt_ofNat_of_lt hlen,
      Int64.toInt_zero]
  unfold indexPosition JsonKeys.indexPosition
  simp only [hk, ok_bind, hrange, ← hvalue]
  split
  · next hmem =>
    have hnat : k.toUInt64.toNat = k.toInt.toNat := by
      have := Slice.toNat_toUInt64 hmem.1
      omega
    rw [hnat]
    rfl
  · rfl

/-- The bound is needed: the length of a longer array is a negative word. -/
example : indexPosition (-1) 0x8000000000000000 = trap (.overflow (-0x8000000000000001)) := by
  decide

theorem positions_eq (s : Slice) {len : Nat} (hlen : len < 0x8000000000000000) :
    positions s len = ofFault (s.positions len) >>= fun ks => .ok (ks.map Fin.val) := by
  unfold positions Slice.positions
  cases hks : s.positions? len with
  | none =>
    rw [Slice.wordPositions_of_stride (Slice.positions?_eq_none_iff.mp hks)]
    rfl
  | some ks =>
    obtain ⟨words, hwords, heq⟩ := Slice.exists_words hlen hks
    rw [hwords]
    show Except.ok (words.map UInt64.toNat) = Except.ok (ks.map Fin.val)
    rw [heq]

theorem mapM_item (items : List Value) (ks : List (Fin items.length)) :
    (ks.map Fin.val).mapM (item items) = .ok (pick items ks) := by
  rw [pick, mapM_eq_ok_iff, List.forall₂_map_left_iff, List.forall₂_map_right_iff,
    List.forall₂_same]
  exact fun k _ => item_fin items k

theorem follow_eq {v : Value} (hv : v.Short) (segment : Segment) :
    follow v segment = ofFault (v.follow segment) := by
  cases segment.reads v with
  | mismatch f hstep hplace => simp [follow, Value.follow, hstep, hplace]
  | member members name hstep hplace =>
    cases hm : Members.get? members name <;>
      simp [follow, Value.follow, hstep, hplace, Place.get, hm]
  | index items i hstep hplace =>
    simp only [follow, Value.follow, hstep, hplace, ofFault_ok, ok_bind,
      indexPosition_eq i hv.length_lt]
    cases JsonKeys.indexPosition i items.length with
    | error f => rfl
    | ok k => exact item_fin items k
  | slice items s hstep hplace =>
    simp only [follow, Value.follow, hstep, hplace, ofFault_ok, ok_bind,
      positions_eq s hv.length_lt, Place.get]
    cases s.positions items.length with
    | error f => rfl
    | ok ks =>
      simp only [ofFault_ok, ok_bind, mapM_item]
      rfl

theorem get_eq {v : Value} (hv : v.Short) (path : Path) : get v path = ofFault (v.get path) := by
  induction path generalizing v with
  | nil => rfl
  | cons segment rest ih =>
    rw [Value.get_cons, ofFault_bind, get, List.foldlM_cons, follow_eq hv]
    cases hw : v.follow segment with
    | error f => rfl
    | ok w => exact ih (hv.follow hw)

end Checked

end JsonKeys
