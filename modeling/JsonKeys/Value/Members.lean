/-! The members of an object: named values in order. -/
namespace JsonKeys

abbrev Members (α : Type) := List (String × α)

namespace Members

variable {α : Type}

def get? : Members α → String → Option α
  | [], _ => none
  | (n, v) :: ms, name => if n = name then some v else get? ms name

/-- Replaces the value of the member in its place, or appends the member. -/
def put : Members α → String → α → Members α
  | [], name, value => [(name, value)]
  | (n, v) :: ms, name, value =>
    if n = name then (n, value) :: ms else (n, v) :: put ms name value

def erase (ms : Members α) (name : String) : Members α := ms.filter (·.1 ≠ name)

/-- Puts every member of the second list, in order. -/
def putAll (ms extra : Members α) : Members α := extra.foldl (fun acc m => acc.put m.1 m.2) ms

@[simp] theorem get?_put_self (ms : Members α) (name : String) (value : α) :
    (ms.put name value).get? name = some value := by
  induction ms with
  | nil => simp [put, get?]
  | cons m ms ih =>
    by_cases h : m.1 = name
    · simp [put, get?, h]
    · simp [put, get?, h, ih]

theorem get?_put_of_ne (ms : Members α) {name other : String} (value : α) (h : name ≠ other) :
    (ms.put name value).get? other = ms.get? other := by
  induction ms with
  | nil => simp [put, get?, h]
  | cons m ms ih =>
    by_cases hm : m.1 = name
    · simp [put, get?, hm, h]
    · simp only [put, if_neg hm, get?, ih]

theorem mem_of_get? {ms : Members α} {name : String} {value : α} (h : ms.get? name = some value) :
    (name, value) ∈ ms := by
  induction ms with
  | nil => cases h
  | cons m ms ih =>
    by_cases hm : m.1 = name
    · simp only [get?, hm, if_true, Option.some.injEq] at h
      subst hm h
      exact List.mem_cons_self
    · simp only [get?, hm, if_false] at h
      exact List.mem_cons_of_mem _ (ih h)

theorem put_of_get? {ms : Members α} {name : String} {value : α} (h : ms.get? name = some value) :
    ms.put name value = ms := by
  induction ms with
  | nil => cases h
  | cons m ms ih =>
    obtain ⟨n, v⟩ := m
    by_cases hm : n = name
    · simp only [get?, hm, if_true, Option.some.injEq] at h
      simp only [put, hm, if_true, h]
    · simp only [get?, hm, if_false] at h
      simp only [put, hm, if_false, ih h]

@[simp] theorem put_put_self (ms : Members α) (name : String) (value other : α) :
    (ms.put name value).put name other = ms.put name other := by
  induction ms with
  | nil => simp [put]
  | cons m ms ih =>
    by_cases hm : m.1 = name
    · simp [put, hm]
    · simp [put, hm, ih]

end Members

end JsonKeys
