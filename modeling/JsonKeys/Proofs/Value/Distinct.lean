import JsonKeys.Value.Reader
import JsonKeys.Proofs.Value.Members

/-! Values in which no object has a name twice. All values that are read from a text are such. -/
namespace JsonKeys

namespace Value

mutual

/-- In no object of the value do two members share a name. -/
def Distinct : Value → Prop
  | array items => ItemsDistinct items
  | object members => (Members.names members).Nodup ∧ MembersDistinct members
  | _ => True

def ItemsDistinct : List Value → Prop
  | [] => True
  | v :: vs => v.Distinct ∧ ItemsDistinct vs

def MembersDistinct : Members Value → Prop
  | [] => True
  | (_, v) :: ms => v.Distinct ∧ MembersDistinct ms

end

theorem itemsDistinct_iff {items : List Value} : ItemsDistinct items ↔ ∀ v ∈ items, v.Distinct := by
  induction items with
  | nil => simp [ItemsDistinct]
  | cons v vs ih => simp [ItemsDistinct, ih]

theorem membersDistinct_iff {members : Members Value} :
    MembersDistinct members ↔ ∀ m ∈ members, m.2.Distinct := by
  induction members with
  | nil => simp [MembersDistinct]
  | cons m ms ih => simp [MembersDistinct, ih]

theorem distinct_array_iff {items : List Value} :
    (array items).Distinct ↔ ∀ v ∈ items, v.Distinct := by
  rw [Distinct, itemsDistinct_iff]

theorem distinct_object_iff {members : Members Value} :
    (object members).Distinct ↔ (Members.names members).Nodup ∧ ∀ m ∈ members, m.2.Distinct := by
  rw [Distinct, membersDistinct_iff]

theorem Distinct.put {members : Members Value} {v : Value} (h : (object members).Distinct)
    (hv : v.Distinct) (name : String) : (object (members.put name v)).Distinct := by
  rw [distinct_object_iff] at h ⊢
  refine ⟨Members.nodup_put h.1 name v, ?_⟩
  intro m hm
  rcases Members.mem_put hm with rfl | hm
  · exact hv
  · exact h.2 m hm

end Value

/-- What holds at the start of a run and is kept by its steps holds at its end. -/
theorem foldlM_keeps {α β : Type} {P : β → Prop} {step : β → α → Option β} {l : List α}
    (hstep : ∀ b, P b → ∀ a ∈ l, ∀ c, step b a = some c → P c) {b c : β} (hb : P b)
    (h : l.foldlM step b = some c) : P c := by
  induction l generalizing b with
  | nil =>
    cases h
    exact hb
  | cons a l ih =>
    rw [List.foldlM_cons] at h
    obtain ⟨d, hd, hc⟩ := Option.bind_eq_some_iff.mp h
    exact ih (fun b hb a ha => hstep b hb a (List.mem_cons_of_mem _ ha))
      (hstep b hb a List.mem_cons_self d hd) hc

namespace Token

def Distinct : Token → Prop
  | scalar v => v.Distinct
  | _ => True

theorem distinct_of_ofNumber? {cs : List Char} {token : Token} (h : ofNumber? cs = some token) :
    token.Distinct := by
  obtain ⟨split, -, h⟩ := Option.bind_eq_some_iff.mp h
  dsimp only at h
  split at h
  · obtain ⟨n, -, h⟩ := Option.bind_eq_some_iff.mp h
    cases h
    trivial
  · cases h

theorem distinct_of_ofWord? {cs : List Char} {token : Token} (h : ofWord? cs = some token) :
    token.Distinct := by
  unfold ofWord? at h
  split at h
  · cases h; trivial
  · split at h
    · cases h; trivial
    · split at h
      · cases h; trivial
      · cases h

end Token

namespace Lexer

def Distinct (lexer : Lexer) : Prop := ∀ token ∈ lexer.tokens, token.Distinct

theorem distinct_cons {token : Token} {tokens : List Token} (ht : token.Distinct)
    (h : ∀ token ∈ tokens, token.Distinct) : ∀ other ∈ token :: tokens, other.Distinct := by
  simpa using ⟨ht, h⟩

theorem distinct_start {tokens : List Token} {c : Char} {next : Lexer}
    (h : ∀ token ∈ tokens, token.Distinct) (hs : start tokens c = some next) : next.Distinct := by
  unfold start at hs
  split at hs
  case h_12 =>
    split at hs
    · cases hs; exact h
    · split at hs
      · cases hs; exact h
      · cases hs
  -- every other character is passed over, opens a text or is a token without a value
  all_goals
    cases hs
    first | exact h | exact distinct_cons trivial h

theorem distinct_step {lexer next : Lexer} {c : Char} (h : lexer.Distinct)
    (hs : lexer.step c = some next) : next.Distinct := by
  unfold step at hs
  cases hp : lexer.pending with
  | between =>
    rw [hp] at hs
    exact distinct_start h hs
  | inText raw =>
    simp only [hp] at hs
    split at hs
    · obtain ⟨cs, -, hs⟩ := Option.bind_eq_some_iff.mp hs
      cases hs
      exact distinct_cons trivial h
    · split at hs <;> cases hs <;> exact h
  | inEscape raw =>
    simp only [hp] at hs
    cases hs
    exact h
  | inNumber raw =>
    simp only [hp] at hs
    split at hs
    · cases hs; exact h
    · obtain ⟨token, ht, hs⟩ := Option.bind_eq_some_iff.mp hs
      exact distinct_start (distinct_cons (Token.distinct_of_ofNumber? ht) h) hs
  | inWord raw =>
    simp only [hp] at hs
    split at hs
    · cases hs; exact h
    · obtain ⟨token, ht, hs⟩ := Option.bind_eq_some_iff.mp hs
      exact distinct_start (distinct_cons (Token.distinct_of_ofWord? ht) h) hs

end Lexer

theorem Token.distinct_of_ofText? {text : String} {tokens : List Token}
    (h : ofText? text = some tokens) : ∀ token ∈ tokens, token.Distinct := by
  obtain ⟨lexer, hrun, h⟩ := Option.bind_eq_some_iff.mp h
  have hlexer : lexer.Distinct :=
    foldlM_keeps (fun _ hb _ _ _ hs => Lexer.distinct_step hb hs) (by simp [Lexer.Distinct]) hrun
  split at h
  · cases h
    intro token ht
    exact hlexer token (List.mem_reverse.mp ht)
  · cases h

/-- What an open container has got so far. -/
def Frame.Distinct : Frame → Prop
  | array items => ∀ v ∈ items, v.Distinct
  | object members _ => (Value.object members).Distinct

def Expected.Distinct : Expected → Prop
  | nothing v => v.Distinct
  | _ => True

namespace Parser

def Distinct (parser : Parser) : Prop :=
  (∀ frame ∈ parser.stack, frame.Distinct) ∧ parser.expected.Distinct

theorem distinct_close {stack : List Frame} {v : Value} (h : ∀ frame ∈ stack, frame.Distinct)
    (hv : v.Distinct) : (close stack v).Distinct := by
  unfold close
  split
  · exact ⟨h, hv⟩
  · next items stack =>
    obtain ⟨hitems, hstack⟩ := List.forall_mem_cons.mp h
    have hframe : (Frame.array (v :: items)).Distinct := List.forall_mem_cons.mpr ⟨hv, hitems⟩
    exact ⟨List.forall_mem_cons.mpr ⟨hframe, hstack⟩, trivial⟩
  · next members name stack =>
    obtain ⟨hmembers, hstack⟩ := List.forall_mem_cons.mp h
    have hframe : (Frame.object (members.put name v) name).Distinct := hmembers.put hv name
    exact ⟨List.forall_mem_cons.mpr ⟨hframe, hstack⟩, trivial⟩

theorem distinct_open? {stack : List Frame} {frame : Frame} {expected : Expected} {next : Parser}
    (h : ∀ frame ∈ stack, frame.Distinct) (hf : frame.Distinct)
    (hs : open? stack frame expected = some next) (he : expected.Distinct) : next.Distinct := by
  unfold open? at hs
  split at hs
  · cases hs
    exact ⟨List.forall_mem_cons.mpr ⟨hf, h⟩, he⟩
  · cases hs

theorem distinct_value? {stack : List Frame} {token : Token} {next : Parser}
    (h : ∀ frame ∈ stack, frame.Distinct) (ht : token.Distinct)
    (hs : value? stack token = some next) : next.Distinct := by
  unfold value? at hs
  split at hs
  · have hframe : (Frame.array []).Distinct := by simp [Frame.Distinct]
    exact distinct_open? h hframe hs trivial
  · have hframe : (Frame.object [] "").Distinct := by
      simp [Frame.Distinct, Value.distinct_object_iff]
    exact distinct_open? h hframe hs trivial
  · cases hs
    exact distinct_close h trivial
  · cases hs
    exact distinct_close h ht
  · cases hs

theorem distinct_name? {stack : List Frame} {name : String} {next : Parser}
    (h : ∀ frame ∈ stack, frame.Distinct) (hs : name? stack name = some next) : next.Distinct := by
  unfold name? at hs
  split at hs
  · cases hs
    obtain ⟨hmembers, hstack⟩ := List.forall_mem_cons.mp h
    exact ⟨List.forall_mem_cons.mpr ⟨hmembers, hstack⟩, trivial⟩
  · cases hs

theorem Distinct.of_stack {parser : Parser} (h : parser.Distinct) {frame : Frame}
    {stack : List Frame} (hs : parser.stack = frame :: stack) :
    frame.Distinct ∧ ∀ frame ∈ stack, frame.Distinct := by
  have hstack := h.1
  rw [hs] at hstack
  exact List.forall_mem_cons.mp hstack

theorem distinct_step {parser next : Parser} {token : Token} (h : parser.Distinct)
    (ht : token.Distinct) (hs : parser.step token = some next) : next.Distinct := by
  unfold step at hs
  split at hs
  · next hstack =>
    cases hs
    exact distinct_close (h.of_stack hstack).2 trivial
  · next hstack =>
    cases hs
    exact distinct_close (h.of_stack hstack).2 (h.of_stack hstack).1
  · exact distinct_value? h.1 ht hs
  · exact distinct_value? h.1 ht hs
  · exact distinct_name? h.1 hs
  · exact distinct_name? h.1 hs
  · cases hs
    exact ⟨h.1, trivial⟩
  · next hstack =>
    cases hs
    exact ⟨List.forall_mem_cons.mpr (h.of_stack hstack), trivial⟩
  · next hstack =>
    cases hs
    exact ⟨List.forall_mem_cons.mpr (h.of_stack hstack), trivial⟩
  · next hstack =>
    cases hs
    obtain ⟨hitems, hrest⟩ := h.of_stack hstack
    apply distinct_close hrest
    rw [Value.distinct_array_iff]
    exact fun v hv => hitems v (List.mem_reverse.mp hv)
  · next hstack =>
    cases hs
    exact distinct_close (h.of_stack hstack).2 (h.of_stack hstack).1
  · cases hs

end Parser

theorem Value.distinct_of_ofText? {text : String} {v : Value} (h : ofText? text = some v) :
    v.Distinct := by
  obtain ⟨tokens, htokens, h⟩ := Option.bind_eq_some_iff.mp h
  obtain ⟨parser, hrun, h⟩ := Option.bind_eq_some_iff.mp h
  have hdistinct := Token.distinct_of_ofText? htokens
  have hstart : (Parser.mk [] .value).Distinct := ⟨by simp, trivial⟩
  have hparser : parser.Distinct :=
    foldlM_keeps (fun _ hb token ht _ hs => Parser.distinct_step hb (hdistinct token ht) hs)
      hstart hrun
  split at h
  · next hexpected =>
    cases h
    have hv := hparser.2
    rw [hexpected] at hv
    exact hv
  · cases h

end JsonKeys
