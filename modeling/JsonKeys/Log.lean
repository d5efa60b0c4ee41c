import JsonKeys.Failure

/-! Results that come with a log of how they were reached. -/
namespace JsonKeys

inductive LogLevel where
  | info
  | debug
  | trace
deriving DecidableEq, Repr

/-- The part of the program that a line of the log comes from. -/
inductive LogTopic where
  | command
  | keys
  | outline
  | query
  | table
deriving DecidableEq, Repr

structure LogLine where
  level : LogLevel
  topic : LogTopic
  text : String
deriving DecidableEq, Repr

def LogLevel.name : LogLevel → String
  | info => "INFO"
  | debug => "DEBUG"
  | trace => "TRACE"

/-- A failure keeps what was logged before it. -/
structure Logged (α : Type) where
  log : List LogLine
  result : Except Failure α

namespace Logged

variable {α β : Type}

def pure (a : α) : Logged α := ⟨[], .ok a⟩

def bind (x : Logged α) (f : α → Logged β) : Logged β :=
  match x.result with
  | .ok a => ⟨x.log ++ (f a).log, (f a).result⟩
  | .error e => ⟨x.log, .error e⟩

instance : Monad Logged where
  pure := Logged.pure
  bind := Logged.bind

instance : LawfulMonad Logged :=
  .mk' Logged
    (fun x => by
      obtain ⟨log, result⟩ := x
      cases result <;> simp [Functor.map, Logged.bind, Logged.pure])
    (fun a f => rfl)
    (fun x f g => by
      obtain ⟨log, result⟩ := x
      cases result with
      | error e => rfl
      | ok a =>
        simp only [Bind.bind, Logged.bind]
        cases (f a).result <;> simp)

/-- A result that nothing is logged about. -/
def lift (result : Except Failure α) : Logged α := ⟨[], result⟩

def note (level : LogLevel) (topic : LogTopic) (text : String) : Logged Unit :=
  ⟨[⟨level, topic, text⟩], .ok ()⟩

@[simp] theorem result_pure (a : α) : (Pure.pure a : Logged α).result = .ok a := rfl

@[simp] theorem result_bind (x : Logged α) (f : α → Logged β) :
    (x >>= f).result = x.result >>= fun a => (f a).result := by
  show (Logged.bind x f).result = _
  unfold Logged.bind
  cases x.result <;> rfl

@[simp] theorem result_mapM (f : α → Logged β) (as : List α) :
    (as.mapM f).result = as.mapM fun a => (f a).result := by
  induction as with
  | nil => rfl
  | cons a as ih =>
    simp only [List.mapM_cons, result_bind, ih, result_pure]
    rfl

@[simp] theorem result_lift (r : Except Failure α) : (lift r).result = r := rfl

@[simp] theorem result_note (level : LogLevel) (topic : LogTopic) (text : String) :
    (note level topic text).result = .ok () := rfl

end Logged

/-- The line that a walk through a document leaves. -/
def outlineLine (keyCount : Nat) (deep : Bool) : LogLine :=
  ⟨.trace, .outline, "crawled " ++ Text.numeral keyCount ++ " key paths (fullscan=" ++
    (if deep then "true" else "false") ++ ")"⟩

def noteOutline (keyCount : Nat) (deep : Bool) : Logged Unit :=
  ⟨[outlineLine keyCount deep], .ok ()⟩

@[simp] theorem result_noteOutline (keyCount : Nat) (deep : Bool) :
    (noteOutline keyCount deep).result = .ok () := rfl

end JsonKeys
