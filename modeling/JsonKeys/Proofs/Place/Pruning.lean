import JsonKeys.Proofs.Place.Locality
import JsonKeys.Proofs.Place.Removal
import JsonKeys.Proofs.Value.Without

/-!
Erasing a member where other members are gone already. No other path leads elsewhere for it: a path
ends where it ended before, or it misses a member on its way.
-/
namespace JsonKeys

open Position

namespace Path

/-- The path ends in a name that no array takes. -/
def EndsInName (path : Path) : Prop :=
  ∃ name, path.getLast? = some (.name name) ∧ Subscript.ofName? name = none

/-- The position that the path addresses, if it has an end that is not a slice. -/
def address? (path : Path) (v : Value) : Option Position :=
  match locate path v with
  | .ok t => t.place.coordinate?.map (t.position ++ [·])
  | .error _ => none

variable {path : Path} {v : Value} {position : Position}

theorem addresses_iff : path.Addresses v position ↔ path.address? v = some position := by
  unfold address?
  constructor
  · rintro ⟨t, c, hl, hc, rfl⟩
    simp only [hl.locate_eq, hc, Option.map_some]
  · intro h
    split at h
    · next t ht =>
      obtain ⟨c, hc, rfl⟩ := Option.map_eq_some_iff.mp h
      exact ⟨t, c, locates_of_locate_eq ht, hc, rfl⟩
    · cases h

instance : Decidable (path.Addresses v position) := decidable_of_iff _ addresses_iff.symm

theorem address?_ne_nil (path : Path) (v : Value) : path.address? v ≠ some [] := by
  rw [ne_eq, ← addresses_iff]
  rintro ⟨t, c, -, -, h⟩
  simp at h

theorem address?_eq_none {fault : Fault} (h : locate path v = .error fault) :
    path.address? v = none := by
  rw [address?, h]

theorem address?_below {rest : Path} {child : Value} {c : Coordinate}
    (h : locate path v = do return (← locate rest child).below c) :
    path.address? v = (rest.address? child).map (c :: ·) := by
  unfold address?
  rw [h]
  cases locate rest child with
  | error fault => rfl
  | ok t => cases hc : t.place.coordinate? <;> simp [Target.below, hc, pure, Except.pure]

theorem address?_member {segment next : Segment} {rest : Path} {members : Members Value}
    {name : String} (h : segment.place (.object members) = .ok (.member members name)) :
    Path.address? (segment :: next :: rest) (.object members) =
      ((members.get? name).bind (Path.address? (next :: rest))).map (.member name :: ·) := by
  cases hget : members.get? name with
  | none =>
    have hlocate : locate (segment :: next :: rest) (.object members) =
        .error (.missingMember name) := by
      simp only [locate, h, ok_bind, hget]
    exact address?_eq_none hlocate
  | some child =>
    apply address?_below
    simp only [locate, h, ok_bind, hget]

end Path

/-- The place in its container without the members at the positions. -/
def Place.without (gone : Position → Bool) : Place → Place
  | member members name => member (Value.membersWithout gone members) name
  | element items k =>
    element (Value.itemsWithout gone 0 items) (k.cast (Value.length_itemsWithout items 0).symm)
  | slice items s => slice (Value.itemsWithout gone 0 items) s

/-- A segment addresses the same place whatever members are gone. -/
theorem Segment.place_without (segment : Segment) (v : Value) (gone : Position → Bool) :
    segment.place (v.without gone) = (segment.place v).map (Place.without gone) := by
  cases v with
  | object members => cases segment <;> rfl
  | array items =>
    rw [Value.without, Segment.place, Segment.place]
    split
    · next i _ =>
      rw [indexPosition_cast i (Value.length_itemsWithout items 0).symm]
      cases indexPosition i items.length <;> rfl
    · rfl
    · rfl
  | _ => rfl

theorem Segment.place_without_of_ok {segment : Segment} {v : Value} {place : Place}
    (h : segment.place v = .ok place) (gone : Position → Bool) :
    segment.place (v.without gone) = .ok (place.without gone) := by
  rw [place_without, h]
  rfl

theorem Segment.place_without_of_error {segment : Segment} {v : Value} {fault : Fault}
    (h : segment.place v = .error fault) (gone : Position → Bool) :
    segment.place (v.without gone) = .error fault := by
  rw [place_without, h]
  rfl

theorem elementOf_without (s : Slice) (next : Segment) (items : List Value)
    (gone : Position → Bool) :
    elementOf s next (Value.itemsWithout gone 0 items) =
      (elementOf s next items).map (Fin.cast (Value.length_itemsWithout items 0).symm) :=
  elementOf_cast _

/-- A name that no array takes is a place in objects only. -/
theorem Segment.place_name_eq_ok {name : String} (hname : Subscript.ofName? name = none) {v : Value}
    {place : Place} (h : Segment.place (.name name) v = .ok place) :
    ∃ members, v = .object members ∧ place = .member members name := by
  cases v with
  | object members => exact ⟨members, rfl, (Except.ok.inj h).symm⟩
  | array items => simp [Segment.place, Segment.subscript?, hname] at h
  | _ => cases h

namespace Value

/-- What erasing at a path comes to in a value without some members. Either the member that the path
addresses is gone as well, or it addresses nothing that is left. Then it misses something, or it was
stopped already when none of the members, or fewer of them, were gone. -/
inductive Prunes (path : Path) (v : Value) (gone : Position → Bool) : Except Fault Value → Prop
  | erased : Prunes path v gone (.ok (v.without (orAt gone (path.address? v))))
  | failed {fault : Fault} (hsame : v.without (orAt gone (path.address? v)) = v.without gone)
      (hfault : fault.isMissingPlace = true ∨
        ∀ less : Position → Bool, (∀ p, less p → gone p) →
          (v.without less).erase path true = .error fault) :
      Prunes path v gone (.error fault)

variable {path rest : Path} {v child : Value} {gone : Position → Bool} {c : Coordinate}
  {fault : Fault}

theorem Prunes.of_locate_eq (fault : Fault) (hpath : locate path v = .error fault)
    (h : ∀ less, (v.without less).erase path true = .error fault) :
    Prunes path v gone ((v.without gone).erase path true) := by
  have hnone := Path.address?_eq_none hpath
  rw [h gone]
  exact .failed (by rw [hnone, orAt_none]) (.inr fun less _ => h less)

/-- A path that goes on below a part prunes the value as the rest of it prunes the part. -/
theorem Prunes.below (hd : v.Distinct) (hc : v.part? c = some child)
    (hkept : ∀ name, c = .member name → gone [c] = false)
    (hlocate : locate path v = do return (← locate rest child).below c)
    (herase : ∀ less : Position → Bool, (∀ name, c = .member name → less [c] = false) →
      (v.without less).erase path true = do
        return (v.without less).putPart c (← (child.without (under less c)).erase rest true))
    (h : Prunes rest child (under gone c) ((child.without (under gone c)).erase rest true)) :
    Prunes path v gone ((v.without gone).erase path true) := by
  have haddress := Path.address?_below hlocate
  have hbelow := without_orAt_below hd hc hkept (Path.address?_ne_nil rest child)
  rw [herase gone hkept]
  generalize hresult : (child.without (under gone c)).erase rest true = result at h
  cases h with
  | erased =>
    rw [ok_bind, ← hbelow, ← haddress]
    exact .erased
  | failed hsame hfault =>
    refine .failed ?_ (hfault.imp_right fun hless less hle => ?_)
    · rw [haddress, hbelow, hsame, putPart_part (part?_without hc hkept)]
    · have hkept' : ∀ name, c = .member name → less [c] = false := by
        intro name hname
        have hnot := hkept name hname
        by_contra hlost
        rw [hle _ (by simpa using hlost)] at hnot
        cases hnot
      rw [herase less hkept', hless (under less c) fun p hp => hle _ hp]
      rfl

theorem erase_true (v : Value) (path : Path) :
    v.erase path true = editAt (fun _ place => place.erase) path v :=
  tolerate_true ..

/-- Where the first segment has no place, it had none when the members were there. -/
theorem Prunes.of_place_error {segment : Segment} (h : segment.place v = .error fault) :
    Prunes (segment :: rest) v gone ((v.without gone).erase (segment :: rest) true) := by
  have hless := Segment.place_without_of_error h
  apply Prunes.of_locate_eq fault
  · cases rest <;> simp only [locate, h, error_bind]
  · intro less
    cases rest <;> simp only [erase_true, editAt, hless, error_bind]

/-- A member that is missing where the path leads is missing with all that the path goes on to below
it. -/
theorem Prunes.of_missing {members : Members Value} {name : String}
    (h : Members.get? (membersWithout gone members) name = none) {below : Option Position}
    (haddress : path.address? (object members) = below.map (.member name :: ·)) :
    Prunes path (object members) gone (.error (.missingMember name)) := by
  refine .failed ?_ (.inl rfl)
  rw [haddress, without, without, membersWithout_orAt_of_absent h]

theorem Prunes.last_member {members : Members Value} {name : String} :
    Prunes [.name name] (object members) gone
      (((object members).without gone).erase [.name name] true) := by
  have haddress : Path.address? [.name name] (object members) = (some []).map (.member name :: ·) :=
    rfl
  have herase : ((object members).without gone).erase [.name name] true =
      (Place.member (membersWithout gone members) name).erase := erase_true ..
  rw [herase, Place.erase]
  cases hget : Members.get? (membersWithout gone members) name with
  | none => exact .of_missing hget haddress
  | some child =>
    have hmore := erase_membersWithout gone members name
    simp only [hmore]
    exact .erased

end Value

/-- Whatever members of a value are gone, erasing at the path prunes it. -/
def Path.Prunable (path : Path) : Prop :=
  ∀ v : Value, v.Distinct → ∀ gone, v.Prunes path gone ((v.without gone).erase path true)

namespace Value

variable {segment next third : Segment} {rest : Path} {gone : Position → Bool}

theorem Prunes.member {members : Members Value} {name : String}
    (hrest : Path.Prunable (next :: rest)) (hd : (object members).Distinct)
    (h : segment.place (object members) = .ok (.member members name)) :
    Prunes (segment :: next :: rest) (object members) gone
      (((object members).without gone).erase (segment :: next :: rest) true) := by
  have hplace := Segment.place_without_of_ok h
  cases hleft : Members.get? (membersWithout gone members) name with
  | none =>
    simp only [erase_true, editAt, hplace, ok_bind, Place.without, hleft]
    exact .of_missing hleft (Path.address?_member h)
  | some left =>
    obtain ⟨hkept, child, hget, -⟩ := get?_membersWithout_eq_some_iff.mp hleft
    have hc : (object members).part? (.member name) = some child := hget
    refine .below hd hc (by simpa using hkept) ?_ ?_ (hrest child (hd.part? hc) _)
    · simp only [locate, h, ok_bind, hget]
    · intro less hless
      have hchild := get?_membersWithout_eq_some_iff.mpr ⟨hless name rfl, child, hget, rfl⟩
      simp only [erase_true, editAt, hplace, ok_bind, Place.without, hchild]
      rfl

theorem Prunes.element {items : List Value} {k : Fin items.length}
    (hrest : Path.Prunable (next :: rest)) (hd : (array items).Distinct)
    (h : segment.place (array items) = .ok (.element items k)) :
    Prunes (segment :: next :: rest) (array items) gone
      (((array items).without gone).erase (segment :: next :: rest) true) := by
  have hc : (array items).part? (.element k) = some (items.get k) := by simp [part?]
  refine .below hd hc (by simp) ?_ ?_ (hrest _ (hd.part? hc) _)
  · simp only [locate, h, ok_bind]
  · intro less _
    have hplace := Segment.place_without_of_ok h less
    simp only [erase_true, editAt, hplace, ok_bind, Place.without, get_itemsWithout]
    rfl

theorem Prunes.through {items : List Value} {s : Slice} {k : Fin items.length}
    (hrest : Path.Prunable (third :: rest)) (hd : (array items).Distinct)
    (h : segment.place (array items) = .ok (.slice items s)) (hk : elementOf s next items = .ok k) :
    Prunes (segment :: next :: third :: rest) (array items) gone
      (((array items).without gone).erase (segment :: next :: third :: rest) true) := by
  have hc : (array items).part? (.element k) = some (items.get k) := by simp [part?]
  refine .below hd hc (by simp) ?_ ?_ (hrest _ (hd.part? hc) _)
  · simp only [locate, h, hk, ok_bind]
  · intro less _
    have hplace := Segment.place_without_of_ok h less
    simp only [erase_true, editAt, hplace, ok_bind, Place.without, elementOf_without, hk,
      Except.map, get_itemsWithout]
    rfl

theorem Prunes.of_elementOf_error {items : List Value} {s : Slice} {fault : Fault}
    (h : segment.place (array items) = .ok (.slice items s))
    (hk : elementOf s next items = .error fault) :
    Prunes (segment :: next :: rest) (array items) gone
      (((array items).without gone).erase (segment :: next :: rest) true) := by
  apply Prunes.of_locate_eq fault
  · simp only [locate, h, hk, ok_bind, error_bind]
  · intro less
    have hplace := Segment.place_without_of_ok h less
    simp only [erase_true, editAt, hplace, ok_bind, Place.without, elementOf_without, hk,
      Except.map, error_bind]

end Value

namespace Path

theorem not_endsInName_nil : ¬EndsInName [] := by
  rintro ⟨name, hlast, -⟩
  cases hlast

theorem endsInName_singleton {segment : Segment} :
    EndsInName [segment] ↔ ∃ name, segment = .name name ∧ Subscript.ofName? name = none := by
  simp [EndsInName]

theorem endsInName_cons_cons {segment next : Segment} {rest : Path} :
    EndsInName (segment :: next :: rest) ↔ EndsInName (next :: rest) := by
  simp [EndsInName]

theorem EndsInName.prunable : ∀ {path : Path}, path.EndsInName → path.Prunable
  | [], hname => absurd hname not_endsInName_nil
  | [segment], hname => by
    obtain ⟨name, rfl, hsub⟩ := endsInName_singleton.mp hname
    intro v _ gone
    cases hplace : Segment.place (.name name) v with
    | error fault => exact .of_place_error hplace
    | ok place =>
      obtain ⟨members, rfl, -⟩ := Segment.place_name_eq_ok hsub hplace
      exact .last_member
  | segment :: next :: rest, hname => by
    have hnext := endsInName_cons_cons.mp hname
    intro v hd gone
    cases hplace : segment.place v with
    | error fault => exact .of_place_error hplace
    | ok place =>
      obtain rfl := Segment.place_container hplace
      cases place with
      | member members name => exact .member hnext.prunable hd hplace
      | element items k => exact .element hnext.prunable hd hplace
      | slice items s =>
        cases hk : elementOf s next items with
        | error fault => exact .of_elementOf_error hplace hk
        | ok k =>
          cases rest with
          | nil =>
            -- a name behind a slice stands for no element
            obtain ⟨name, rfl, hsub⟩ := endsInName_singleton.mp hnext
            obtain ⟨-, i, -, -, hi, -⟩ := elementOf_eq_ok_iff.mp hk
            simp [Segment.subscript?, hsub] at hi
          | cons third rest => exact .through (endsInName_cons_cons.mp hnext).prunable hd hplace hk

end Path

namespace Value

variable {path : Path} {v w : Value} {gone less more : Position → Bool}

theorem erase_eq_tolerate (v : Value) (path : Path) (strict : Bool) :
    v.erase path strict = tolerate strict v (v.erase path true) := by
  rw [erase_true, erase]

/-- Erasing leniently takes one more member away, the one that the path addresses in the whole
value. -/
theorem erase_without (hname : path.EndsInName) (hd : v.Distinct)
    (h : (v.without gone).erase path false = .ok w) :
    w = v.without (orAt gone (path.address? v)) := by
  have hprunes := hname.prunable v hd gone
  rw [erase_eq_tolerate] at h
  generalize (v.without gone).erase path true = result at h hprunes
  cases hprunes with
  | erased => exact (Except.ok.inj h).symm
  | @failed fault hsame hfault =>
    by_cases hmissing : fault.isMissingPlace = true
    · simp only [tolerate, hmissing, Bool.not_false, Bool.and_self, if_true, Except.ok.injEq] at h
      rw [hsame, h]
    · simp [tolerate, hmissing] at h

/-- It still succeeds when more members are gone. -/
theorem erase_without_of_less (hname : path.EndsInName) (hd : v.Distinct)
    (hle : ∀ p, less p → more p) (h : (v.without less).erase path false = .ok w) :
    (v.without more).erase path false = .ok (v.without (orAt more (path.address? v))) := by
  have hprunes := hname.prunable v hd more
  rw [erase_eq_tolerate] at h ⊢
  generalize (v.without more).erase path true = result at hprunes
  cases hprunes with
  | erased => rfl
  | @failed fault hsame hfault =>
    have hmissing : fault.isMissingPlace = true := by
      rcases hfault with hmissing | hless
      · exact hmissing
      · by_contra hstops
        simp [tolerate, hless less hle, hstops] at h
    simp [tolerate, hmissing, hsame]

end Value

end JsonKeys
