import JsonKeys.Proofs.Place.Trapless

/-!
The checked run to the end of a path. It meets no trap on the way, in particular it does not go past
the last segment, and it ends where the path leads.
-/
namespace JsonKeys

namespace Checked

theorem narrow_eq (s : Slice) (next : Segment) {items : List Value}
    (hv : (Value.array items).Short) :
    narrow s next (.array items) =
      ofFault (elementOf s next items) >>= fun k => .ok (Int64.ofNat k) := by
  simp only [narrow, elementOf, positions_eq s hv.length_lt]
  cases hks : s.positions items.length with
  | error f => rfl
  | ok ks =>
    have hlen : (ks.map Fin.val).length = ks.length := List.length_map ..
    have hshort : ks.length < 0x8000000000000000 := by
      have := Slice.length_le_of_positions hks
      have := hv.length_lt
      omega
    cases hsub : next.subscript? with
    | none => simp [Segment.step, hsub]
    | some subscript =>
      cases subscript with
      | slice t => simp [Segment.step, hsub]
      | index i =>
        simp only [ofFault_ok, ok_bind, Segment.step, hsub, hlen, indexPosition_eq i hshort]
        cases JsonKeys.indexPosition i ks.length with
        | error f => rfl
        | ok j =>
          have hitem : item (ks.map Fin.val) j = .ok (ks.get j).val := by
            simp [item]
          simp only [ofFault_ok, ok_bind, hitem]
          rfl

theorem descend_index (segment : Segment) (i : Int64) {items : List Value}
    (hv : (Value.array items).Short) :
    descend (.array items) (.index i) segment =
      ofFault (JsonKeys.indexPosition i items.length) >>= fun k =>
        .ok (.element k, items.get k) := by
  simp only [descend, indexPosition_eq i hv.length_lt]
  cases JsonKeys.indexPosition i items.length with
  | error f => rfl
  | ok k =>
    simp only [ofFault_ok, ok_bind, item_fin]
    rfl

section Locate

variable {path : Path} {pos : Nat} {segment next : Segment} {v : Value}

theorem locate_last (hsegment : path[pos]? = some segment) (hend : pos + 1 = path.length) :
    locate path pos v = ofFault (segment.step v) >>= fun step => .ok ⟨[], v, step⟩ := by
  obtain ⟨hpos, rfl⟩ := List.getElem?_eq_some_iff.mp hsegment
  have hnone : path[pos + 1]? = none := List.getElem?_eq_none (by omega)
  rw [locate, dif_pos hpos]
  cases path[pos].step v with
  | error f => rfl
  | ok step =>
    have hfold : fold path pos step v = .ok (step, ⟨1, by decide⟩) := by
      cases step <;> simp [fold, hnone]
    simp only [ofFault_ok, ok_bind, hfold, if_pos hend]
    rfl

/-- Every step but a slice takes in its own segment only. -/
theorem locate_next {step : Step} (hsegment : path[pos]? = some segment)
    (hnext : path[pos + 1]? = some next) (hstep : segment.step v = .ok step)
    (hslice : ∀ s, step ≠ .slice s) :
    locate path pos v = descend v step segment >>= fun down =>
      locate path (pos + 1) down.2 >>= fun r => .ok (r.below down.1) := by
  obtain ⟨hpos, rfl⟩ := List.getElem?_eq_some_iff.mp hsegment
  have hend : pos + 1 ≠ path.length := by
    have := (List.getElem?_eq_some_iff.mp hnext).1
    omega
  have hfold : fold path pos step v = .ok (step, ⟨1, by decide⟩) := by
    cases step with
    | slice s => exact absurd rfl (hslice s)
    | _ => rfl
  rw [locate, dif_pos hpos]
  simp only [hstep, ofFault_ok, ok_bind, hfold, if_neg hend]
  rfl

/-- A slice takes in the segment behind it. -/
theorem locate_slice {s : Slice} (hsegment : path[pos]? = some segment)
    (hnext : path[pos + 1]? = some next) (hstep : segment.step v = .ok (.slice s)) :
    locate path pos v = narrow s next v >>= fun i =>
      if pos + 2 = path.length then .ok ⟨[], v, .index i⟩
      else descend v (.index i) segment >>= fun down =>
        locate path (pos + 2) down.2 >>= fun r => .ok (r.below down.1) := by
  obtain ⟨hpos, rfl⟩ := List.getElem?_eq_some_iff.mp hsegment
  have hfold : fold path pos (.slice s) v =
      narrow s next v >>= fun i => .ok (.index i, ⟨2, by decide⟩) := by
    simp only [fold, hnext]
    rfl
  rw [locate, dif_pos hpos]
  simp only [hstep, ofFault_ok, ok_bind, hfold, bind_assoc]
  rfl

end Locate

/-- What a checked run locates, and where the path leads. Both halt on the same fault, except that
the position of an index at the end has still to be looked at. -/
inductive Agrees (last : Segment) : Checked Reference → Except Fault Target → Prop
  | fault (f : Fault) : Agrees last (fault f) (.error f)
  | member (position : Position) (members : Members Value) (name : String) :
      Agrees last (.ok ⟨position, .object members, .member name⟩)
        (.ok ⟨position, last, .member members name⟩)
  | index (position : Position) (items : List Value) (i : Int64) (h : (Value.array items).Short) :
      Agrees last (.ok ⟨position, .array items, .index i⟩)
        (do return ⟨position, last, .element items (← JsonKeys.indexPosition i items.length)⟩)
  | slice (position : Position) (items : List Value) (s : Slice) (h : (Value.array items).Short) :
      Agrees last (.ok ⟨position, .array items, .slice s⟩) (.ok ⟨position, last, .slice items s⟩)

theorem Agrees.below {last : Segment} {run : Checked Reference} {result : Except Fault Target}
    (h : Agrees last run result) (c : Coordinate) :
    Agrees last (run >>= fun r => .ok (r.below c)) (do return (← result).below c) := by
  cases h with
  | fault f => exact .fault f
  | member position members name => exact .member (c :: position) members name
  | index position items i h =>
    rw [bind_assoc]
    exact .index (c :: position) items i h
  | slice position items s h => exact .slice (c :: position) items s h

theorem agrees_last {last : Segment} {v : Value} (hv : v.Short) :
    Agrees last (ofFault (last.step v) >>= fun step => .ok ⟨[], v, step⟩)
      (JsonKeys.locate [last] v) := by
  cases last.reads v with
  | mismatch f hstep hplace =>
    simp only [JsonKeys.locate, hstep, hplace]
    exact .fault f
  | member members name hstep hplace =>
    simp only [JsonKeys.locate, hstep, hplace]
    exact .member [] members name
  | index items i hstep hplace =>
    simp only [JsonKeys.locate, hstep, hplace, bind_assoc]
    exact .index [] items i hv
  | slice items s hstep hplace =>
    simp only [JsonKeys.locate, hstep, hplace]
    exact .slice [] items s hv

section Step

variable {path rest : Path} {pos : Nat} {segment next last : Segment} {v : Value}

theorem agrees_mismatch {f : Fault} (hsegment : path[pos]? = some segment)
    (hstep : segment.step v = .error f) (hplace : segment.place v = .error f) :
    Agrees last (locate path pos v) (JsonKeys.locate (segment :: next :: rest) v) := by
  obtain ⟨hpos, rfl⟩ := List.getElem?_eq_some_iff.mp hsegment
  have hlocate : locate path pos v = fault f := by
    rw [locate, dif_pos hpos, hstep]
    rfl
  rw [hlocate]
  simp only [JsonKeys.locate, hplace]
  exact .fault f

theorem agrees_member {members : Members Value} {name : String} (hv : (Value.object members).Short)
    (hsegment : path[pos]? = some segment) (hnext : path[pos + 1]? = some next)
    (hstep : segment.step (.object members) = .ok (.member name))
    (hplace : segment.place (.object members) = .ok (.member members name))
    (ih : ∀ child : Value, child.Short →
      Agrees last (locate path (pos + 1) child) (JsonKeys.locate (next :: rest) child)) :
    Agrees last (locate path pos (.object members))
      (JsonKeys.locate (segment :: next :: rest) (.object members)) := by
  rw [locate_next hsegment hnext hstep (fun s h => by cases h)]
  simp only [JsonKeys.locate, hplace, ok_bind, descend]
  cases hm : Members.get? members name with
  | none => exact .fault _
  | some child => exact (ih child (hv.member hm)).below (.member name)

theorem agrees_index {items : List Value} {i : Int64} (hv : (Value.array items).Short)
    (hsegment : path[pos]? = some segment) (hnext : path[pos + 1]? = some next)
    (hstep : segment.step (.array items) = .ok (.index i))
    (hplace : segment.place (.array items) =
      (do return .element items (← JsonKeys.indexPosition i items.length)))
    (ih : ∀ child : Value, child.Short →
      Agrees last (locate path (pos + 1) child) (JsonKeys.locate (next :: rest) child)) :
    Agrees last (locate path pos (.array items))
      (JsonKeys.locate (segment :: next :: rest) (.array items)) := by
  rw [locate_next hsegment hnext hstep (fun s h => by cases h), descend_index segment i hv]
  simp only [JsonKeys.locate, hplace]
  cases JsonKeys.indexPosition i items.length with
  | error f => exact .fault f
  | ok k => exact (ih _ (hv.item k)).below (.element k)

theorem agrees_slice {items : List Value} {s : Slice} (hv : (Value.array items).Short)
    (hsegment : path[pos]? = some segment) (hnext : path[pos + 1]? = some next)
    (hrest : path.drop (pos + 2) = rest) (hlast : path[path.length - 1]? = some last)
    (hstep : segment.step (.array items) = .ok (.slice s))
    (hplace : segment.place (.array items) = .ok (.slice items s))
    (ih : pos + 2 < path.length → ∀ child : Value, child.Short →
      Agrees last (locate path (pos + 2) child) (JsonKeys.locate rest child)) :
    Agrees last (locate path pos (.array items))
      (JsonKeys.locate (segment :: next :: rest) (.array items)) := by
  have hbound := (List.getElem?_eq_some_iff.mp hnext).1
  rw [locate_slice hsegment hnext hstep, narrow_eq s next hv]
  simp only [JsonKeys.locate, hplace, ok_bind]
  cases elementOf s next items with
  | error f => exact .fault f
  | ok k =>
    have hposition := indexPosition_ofNat hv.length_lt k
    simp only [ofFault_ok, ok_bind]
    by_cases hend : pos + 2 = path.length
    · have hnil : rest = [] := by
        rw [← hrest]
        exact List.drop_eq_nil_of_le (by omega)
      have hnext' : next = last := by
        have hpred : path.length - 1 = pos + 1 := by omega
        rw [hpred, hnext] at hlast
        exact Option.some.inj hlast
      have hindex : Agrees last _ _ := .index [] items (Int64.ofNat k) hv
      rw [hposition] at hindex
      rw [if_pos hend, hnil, hnext']
      exact hindex
    · have hlt : pos + 2 < path.length := by omega
      have hcons : rest = path[pos + 2] :: path.drop (pos + 3) := by
        rw [← hrest]
        exact List.drop_eq_getElem_cons hlt
      have hbelow := (ih hlt _ (hv.item k)).below (.element k)
      rw [if_neg hend, descend_index segment _ hv, hposition]
      rw [hcons] at hbelow ⊢
      exact hbelow

end Step

/-- A run from a position on follows the rest of the path, and does not go past its end. -/
theorem agrees_locate {path : Path} {last : Segment} (hlast : path[path.length - 1]? = some last)
    {pos : Nat} {v : Value} (hpos : pos < path.length) (hv : v.Short) :
    Agrees last (locate path pos v) (JsonKeys.locate (path.drop pos) v) := by
  induction pos, v using locate.induct path with
  | case2 pos v hout => exact absurd hpos hout
  | case1 pos v hin ih =>
    have hsegment : path[pos]? = some path[pos] := List.getElem?_eq_getElem hpos
    have hdrop : path.drop pos = path[pos] :: path.drop (pos + 1) := List.drop_eq_getElem_cons hpos
    by_cases hend : pos + 1 = path.length
    · have hnil : path.drop (pos + 1) = [] := List.drop_eq_nil_of_le (by omega)
      have hlast' : path[pos] = last := by
        have hpred : path.length - 1 = pos := by omega
        rw [hpred, hsegment] at hlast
        exact Option.some.inj hlast
      rw [hdrop, hnil, locate_last hsegment hend, hlast']
      exact agrees_last hv
    · have hbound : pos + 1 < path.length := by omega
      have hnext : path[pos + 1]? = some path[pos + 1] := List.getElem?_eq_getElem hbound
      have hdrop' : path.drop (pos + 1) = path[pos + 1] :: path.drop (pos + 2) :=
        List.drop_eq_getElem_cons hbound
      have ih1 := fun child => ih 1 (by decide) child hbound
      have ih2 := fun h2 child => ih 2 (by decide) child h2
      rw [hdrop'] at ih1
      rw [hdrop, hdrop']
      cases path[pos].reads v with
      | mismatch f hstep hplace => exact agrees_mismatch hsegment hstep hplace
      | member members name hstep hplace => exact agrees_member hv hsegment hnext hstep hplace ih1
      | index items i hstep hplace => exact agrees_index hv hsegment hnext hstep hplace ih1
      | slice items s hstep hplace =>
        exact agrees_slice hv hsegment hnext rfl hlast hstep hplace ih2

end Checked

end JsonKeys
