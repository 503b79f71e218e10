import HotLoop.Operation.Descr

/-!
# Compiled units

The registry owns the units that have been compiled or are being compiled. Everybody else holds
handles. A handle is good until its unit is released; the slot then moves on to another generation
and may be used again, without the old handle ever meeting the new unit.
-/

namespace HotLoop

structure CodeRange where
  address : Nat
  size : Nat
  deriving DecidableEq, Repr, Inhabited

structure CompiledUnit where
  driver : Nat
  number : Option Nat := none
  /-- The generation of the last use; zero until the unit is kept alive for the first time. -/
  generation : Nat := 0
  entries : List EntryPoint := []
  jumpsTo : List UnitHandle := []
  code : Option CodeRange := none
  /-- A quasi-immutable field that the unit relies on has been written. -/
  invalidated : Bool := false
  deriving DecidableEq, Repr, Inhabited

def CompiledUnit.recordJump (u : CompiledUnit) (target : UnitHandle) : CompiledUnit :=
  if u.jumpsTo.contains target then u else { u with jumpsTo := u.jumpsTo ++ [target] }

theorem CompiledUnit.mem_jumpsTo_recordJump {u : CompiledUnit} {h target : UnitHandle} :
    h ∈ (u.recordJump target).jumpsTo ↔ h ∈ u.jumpsTo ∨ h = target := by
  unfold recordJump
  split <;> simp_all

structure UnitSlot where
  generation : Nat
  unit? : Option CompiledUnit
  deriving Repr, Inhabited

/-- The generation after `g`: a 32-bit word that skips zero. -/
def UnitSlot.nextGeneration (g : Nat) : Nat := if g + 1 < UInt32.size then g + 1 else 1

/-- The owner of all units. Free slots are used again, the last freed first. -/
structure Registry where
  slots : List UnitSlot := []
  free : List Nat := []
  deriving Repr, Inhabited

namespace Registry

def make (r : Registry) (driver : Nat) : UnitHandle × Registry :=
  let unit : CompiledUnit := { driver }
  match r.free with
  | index :: free =>
    let generation := (r.slots[index]?.map (·.generation)).getD 1
    (⟨index, generation⟩, ⟨r.slots.set index ⟨generation, some unit⟩, free⟩)
  | [] => (⟨r.slots.length, 1⟩, ⟨r.slots ++ [⟨1, some unit⟩], []⟩)

def get? (r : Registry) (h : UnitHandle) : Option CompiledUnit :=
  match r.slots[h.index]? with
  | some slot => if slot.generation = h.generation then slot.unit? else none
  | none => none

def isAlive (r : Registry) (h : UnitHandle) : Bool := (r.get? h).isSome

/-- Changes the unit of a handle, if it is alive. -/
def modify (r : Registry) (h : UnitHandle) (f : CompiledUnit → CompiledUnit) : Registry :=
  { r with slots := r.slots.modify h.index fun slot =>
      if slot.generation = h.generation then { slot with unit? := slot.unit?.map f } else slot }

theorem get?_modify (r : Registry) (h h' : UnitHandle) (f : CompiledUnit → CompiledUnit) :
    (r.modify h f).get? h' = if h' = h then (r.get? h).map f else r.get? h' := by
  obtain ⟨i, g⟩ := h
  obtain ⟨i', g'⟩ := h'
  simp only [get?, modify, List.getElem?_modify, UnitHandle.mk.injEq]
  by_cases hi : i = i'
  · subst hi
    cases r.slots[i]? with
    | none => simp
    | some slot => grind
  · grind

/-- Drops the unit of a handle; every copy of the handle is dead from now on. -/
def release (r : Registry) (h : UnitHandle) : Option CompiledUnit × Registry :=
  match r.get? h with
  | none => (none, r)
  | some unit =>
    (some unit,
      ⟨r.slots.set h.index ⟨UnitSlot.nextGeneration h.generation, none⟩, h.index :: r.free⟩)

def drop (r : Registry) (h : UnitHandle) : Registry := (r.release h).2

/-- Remembers that the code of `source` may jump to `target`. -/
def recordJump (r : Registry) (source target : UnitHandle) : Registry :=
  r.modify source (·.recordJump target)

/-- Does `source` live without knowing of a jump to `target`? -/
def isNewJump (r : Registry) (source target : UnitHandle) : Bool :=
  match r.get? source with
  | some unit => !unit.jumpsTo.contains target
  | none => false

def liveHandles (r : Registry) : List UnitHandle :=
  r.slots.zipIdx.filterMap fun (slot, index) =>
    slot.unit?.map fun _ => ⟨index, slot.generation⟩

def size (r : Registry) : Nat := r.liveHandles.length

end Registry

end HotLoop
