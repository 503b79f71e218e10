import HotLoop.Operation.Descr

/-!
# Entry points

What changes about an entry point is the unit that its label was finally attached to. That is
filled in just before the code is submitted, and used to record jumps between units.
-/

namespace HotLoop

/-- The unit of every entry point of a context, by their `id`. -/
structure EntryTable where
  homes : List (Option UnitHandle) := []
  deriving Repr, Inhabited

namespace EntryTable

def make (t : EntryTable) (owner : UnitHandle) (argKinds : List Kind)
    (home : Option UnitHandle := none) : EntryPoint × EntryTable :=
  (⟨t.homes.length, owner, argKinds⟩, ⟨t.homes ++ [home]⟩)

def home? (t : EntryTable) (e : EntryPoint) : Option UnitHandle := (t.homes[e.id]?).join

def setHome (t : EntryTable) (e : EntryPoint) (home : Option UnitHandle) : EntryTable :=
  ⟨t.homes.set e.id home⟩

theorem home?_setHome (t : EntryTable) (e e' : EntryPoint) (home : Option UnitHandle) :
    (t.setHome e home).home? e' =
      if e'.id = e.id ∧ e.id < t.homes.length then home else t.home? e' := by
  simp only [home?, setHome, List.getElem?_set]
  grind

end EntryTable

end HotLoop
