/-!
# Finite tables

A table maps finitely many keys to values. It is a list of pairs without repeated keys, the latest
insertion first. `get?` is the view: after an insertion the new key has its value and every other
key what it had before.
-/

namespace HotLoop

/-- A finite map from `κ` to `α`. -/
structure Table (κ : Type) (α : Type) where
  entries : List (κ × α) := []
  deriving Repr, Inhabited

namespace Table

variable {κ α : Type}

def empty : Table κ α := {}

def size (t : Table κ α) : Nat := t.entries.length

variable [DecidableEq κ]

/-- The value that a list of pairs gives first to a key. -/
def find (k : κ) : List (κ × α) → Option α
  | [] => none
  | (k', a) :: es => if k' = k then some a else find k es

def get? (t : Table κ α) (k : κ) : Option α := find k t.entries

def erase (t : Table κ α) (k : κ) : Table κ α := ⟨t.entries.filter (·.1 ≠ k)⟩

/-- The table with a new value for a key. -/
def insert (t : Table κ α) (k : κ) (a : α) : Table κ α := ⟨(k, a) :: (t.erase k).entries⟩

/-- The table with the value of a key, if it has one, changed. -/
def modify (t : Table κ α) (k : κ) (f : α → α) : Table κ α :=
  ⟨t.entries.map fun e => if e.1 = k then (e.1, f e.2) else e⟩

/-- The pairs inserted one after another; a later value replaces an earlier one. -/
def ofList (l : List (κ × α)) : Table κ α := l.foldl (fun t e => t.insert e.1 e.2) empty

@[simp] theorem get?_empty (k : κ) : (empty : Table κ α).get? k = none := rfl

theorem get?_erase (t : Table κ α) (k k' : κ) :
    (t.erase k).get? k' = if k' = k then none else t.get? k' := by
  simp only [get?, erase]
  induction t.entries with
  | nil => simp [find]
  | cons e es ih =>
    by_cases he : e.1 = k <;> by_cases hk : e.1 = k' <;> grind [find]

theorem get?_insert (t : Table κ α) (k k' : κ) (a : α) :
    (t.insert k a).get? k' = if k' = k then some a else t.get? k' := by
  have h := get?_erase t k k'
  simp only [get?, insert, find] at h ⊢
  grind

@[simp] theorem get?_insert_self (t : Table κ α) (k : κ) (a : α) :
    (t.insert k a).get? k = some a := by
  simp [get?_insert]

theorem get?_modify (t : Table κ α) (k k' : κ) (f : α → α) :
    (t.modify k f).get? k' = if k' = k then (t.get? k').map f else t.get? k' := by
  simp only [get?, modify]
  induction t.entries with
  | nil => simp [find]
  | cons e es ih => grind [find]

/-- The value of a key in a table of pairs is the one that it is given last. -/
theorem get?_ofList (l : List (κ × α)) (k : κ) :
    (ofList l).get? k = (l.reverse.find? (·.1 = k)).map (·.2) := by
  rw [ofList, List.foldl_eq_foldr_reverse]
  induction l.reverse with
  | nil => rfl
  | cons e es ih =>
    rw [List.foldr_cons, get?_insert, List.find?_cons, ih]
    by_cases he : e.1 = k
    · simp [he]
    · simp [he, Ne.symm he]

end Table

end HotLoop
