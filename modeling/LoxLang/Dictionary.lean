/-!
# Dictionaries

A dictionary keeps one value for each of finitely many names, in the order in which the names
were first entered.
-/

namespace LoxLang

/-- Names with a value each. -/
structure Dictionary (α : Type) where
  entries : List (String × α)
deriving Repr

namespace Dictionary

variable {α : Type}

/-- The dictionary without names. -/
def empty : Dictionary α := ⟨[]⟩

instance : Inhabited (Dictionary α) := ⟨empty⟩

/-- The value of a name among entries. -/
def find? (name : String) : List (String × α) → Option α
  | [] => none
  | entry :: rest => if entry.1 = name then some entry.2 else find? name rest

/-- Entries with a new value for a name. -/
def put (name : String) (value : α) : List (String × α) → List (String × α)
  | [] => [(name, value)]
  | entry :: rest =>
    if entry.1 = name then (name, value) :: rest else entry :: put name value rest

/-- The value of a name. -/
def get? (d : Dictionary α) (name : String) : Option α :=
  find? name d.entries

/-- Whether a name has a value. -/
def contains (d : Dictionary α) (name : String) : Bool :=
  (d.get? name).isSome

/-- Give a name a value. -/
def insert (d : Dictionary α) (name : String) (value : α) : Dictionary α :=
  ⟨put name value d.entries⟩

/-- Take a name out. -/
def erase (d : Dictionary α) (name : String) : Dictionary α :=
  ⟨d.entries.filter fun entry => entry.1 ≠ name⟩

/-- The names that have a value. -/
def keys (d : Dictionary α) : List String :=
  d.entries.map Prod.fst

/-- The names that have a value, in alphabetical order. -/
def sortedKeys (d : Dictionary α) : List String :=
  d.keys.mergeSort fun a b => decide (a ≤ b)

theorem get?_insert (d : Dictionary α) (name other : String) (value : α) :
    (d.insert name value).get? other = if name = other then some value else d.get? other := by
  obtain ⟨entries⟩ := d
  simp only [get?, insert]
  induction entries with
  | nil => rfl
  | cons entry rest ih => grind [put, find?]

theorem get?_erase (d : Dictionary α) (name other : String) :
    (d.erase name).get? other = if name = other then none else d.get? other := by
  obtain ⟨entries⟩ := d
  simp only [get?, erase]
  induction entries with
  | nil => simp [find?]
  | cons entry rest ih => grind [find?]

end Dictionary

end LoxLang
