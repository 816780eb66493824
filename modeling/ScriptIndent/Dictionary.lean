/-!
# ScriptIndent.Dictionary

Dictionaries by text that keep the order in which keys were first assigned.

A dictionary is the list of its pairs.  Assigning to a key that is there
replaces its value in place (`get?_assign_self`), and leaves all other keys
alone (`get?_assign_of_ne`).
-/

namespace ScriptIndent

abbrev Dictionary (α : Type) := List (String × α)

namespace Dictionary

variable {α : Type}

/-- Put a value under a key, in place of an earlier one or at the end. -/
def assign (key : String) (value : α) : Dictionary α → Dictionary α
  | [] => [(key, value)]
  | (k, v) :: rest => if k = key then (key, value) :: rest else (k, v) :: assign key value rest

/-- The value under a key. -/
def get? (d : Dictionary α) (key : String) : Option α := (d.find? (·.1 = key)).map (·.2)

@[simp] theorem get?_nil (key : String) : get? ([] : Dictionary α) key = none := rfl

theorem get?_cons (p : String × α) (d : Dictionary α) (key : String) :
    get? (p :: d) key = if p.1 = key then some p.2 else get? d key := by
  unfold get?
  by_cases h : p.1 = key <;> simp [h]

theorem get?_assign_self (key : String) (value : α) (d : Dictionary α) :
    get? (assign key value d) key = some value := by
  induction d with
  | nil => simp [assign, get?_cons]
  | cons p rest ih => by_cases h : p.1 = key <;> simp [assign, get?_cons, h, ih]

theorem get?_assign_of_ne {key other : String} (h : key ≠ other) (value : α)
    (d : Dictionary α) : get? (assign key value d) other = get? d other := by
  induction d with
  | nil => simp [assign, get?_cons, h]
  | cons p rest ih =>
    by_cases hp : p.1 = key
    · have : p.1 ≠ other := hp ▸ h
      simp [assign, get?_cons, hp, h]
    · simp [assign, get?_cons, hp, ih]

end Dictionary

end ScriptIndent
