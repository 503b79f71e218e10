import HotLoop.Counter
import HotLoop.Stop
import HotLoop.Frame

/-!
# Guards

What changes about a guard: how its failures are counted, whether a bridge is being traced from it,
its resume data, the unit its code is in, and how many bridges it has got. A guard that compares
with a value may count every observed value by itself.
-/

namespace HotLoop

inductive Counting where
  | together (hash : UInt32)
  | perValue (kind : Kind) (index : Nat)
  deriving DecidableEq, Repr, Inhabited

namespace Counting

/-- The tag of a kind in the status word; counting together has the tag zero. -/
def tag : Kind → Nat
  | .int => 2
  | .ref => 4
  | .float => 6
  | .void => 0

def word : Counting → Nat
  | together hash => hash.toNat
  | perValue kind index => tag kind + index * 8

end Counting

structure GuardRecord where
  /-- A bridge is being traced from here. -/
  busy : Bool := false
  counting : Counting := .together 0
  data : ResumeData := {}
  /-- The unit whose code contains the guard. -/
  loop : Option UnitHandle := none
  bridges : Nat := 0
  attempts : Nat := 0
  deriving DecidableEq, Repr, Inhabited

namespace GuardRecord

/-- Everything about busyness and counting in one word. -/
def status (g : GuardRecord) : Nat := g.counting.word + if g.busy then 1 else 0

/-- The index of the fail argument whose values are counted. -/
def valueIndex? (g : GuardRecord) : Option Nat :=
  match g.counting with
  | .together _ => none
  | .perValue _ index => some index

end GuardRecord

/-- A hash without the three bits that the status word uses for other things. -/
def clearLowBits (hash : UInt32) : UInt32 := hash &&& 0xfffffff8

structure GuardTable where
  records : List GuardRecord := []
  deriving Repr, Inhabited

namespace GuardTable

def make (t : GuardTable) (opcode : OpCode) (kind : GuardKind) (data : ResumeData) :
    Guard × GuardTable :=
  (⟨t.records.length, opcode, kind⟩, ⟨t.records ++ [{ data := data }]⟩)

def get (t : GuardTable) (g : Guard) : GuardRecord := t.records[g.id]?.getD {}

def modify (t : GuardTable) (g : Guard) (f : GuardRecord → GuardRecord) : GuardTable :=
  ⟨t.records.modify g.id f⟩

theorem get_modify (t : GuardTable) (g g' : Guard) (f : GuardRecord → GuardRecord) :
    (t.modify g f).get g' =
      if g'.id = g.id ∧ g.id < t.records.length then f (t.get g) else t.get g' := by
  simp only [get, modify, List.getElem?_modify]
  grind

def setData (t : GuardTable) (g : Guard) (data : ResumeData) : GuardTable :=
  t.modify g fun r => { r with data }

/-- Gives a guard its final fail arguments; one without numbering gets the plain one. -/
def setCount (t : GuardTable) (g : Guard) (count : Nat) : GuardTable :=
  t.modify g fun r =>
    let numbering :=
      if r.data.numbering.isEmpty then (ResumeData.ofFailArgs count).numbering
      else r.data.numbering
    { r with data := { r.data with numbering, count } }

def setCounting (t : GuardTable) (g : Guard) (counting : Counting) : GuardTable :=
  t.modify g fun r => { r with counting, busy := false }

def startTracing (t : GuardTable) (g : Guard) : GuardTable :=
  t.modify g fun r => { r with busy := true, attempts := r.attempts + 1 }

def doneTracing (t : GuardTable) (g : Guard) : GuardTable :=
  t.modify g fun r => { r with busy := false }

end GuardTable

/--
Gives a guard operation its final fail arguments, and the guard a counter slot of its own.
-/
def GuardTable.storeBoxes (t : GuardTable) (counter : Counter) (g : Guard) (op : Operation)
    (boxes : List (Option Var)) : Operation × GuardTable × Counter :=
  let (hash, counter) := counter.fetch
  let t := (t.setCount g boxes.length).setCounting g (.together (clearLowBits hash))
  ({ op with failArgs := some boxes }, t, counter)

/--
Makes a guard count every value by itself that is compared by `op`, if the value is among the fail
arguments of `op`.
-/
def GuardTable.countPerValue (t : GuardTable) (g : Guard) (op : Operation) :
    Except Fault GuardTable :=
  if op.opcode ≠ .guardValue then .error (.notComparing op.opcode)
  else match op.args.head?.bind Arg.var? with
    | none => .ok t
    | some v =>
      match op.failSlots.findIdx? (· == some v) with
      | none => .ok t
      | some index =>
        if v.kind = .void then .error .guardOnVoid
        else .ok (t.setCounting g (.perValue v.kind index))

/-- The kind of a guard that the optimizer emits without a descriptor. -/
def GuardKind.ofOpCode (driver : Nat) (op : OpCode) : Except Fault GuardKind :=
  match op with
  | .guardNotForced | .guardNotForced2 => .ok (.forced driver)
  | .guardNotInvalidated => .ok .notInvalidated
  | .guardFutureCondition => .ok .atPosition
  | op => if op.isGuard then .ok .plain else .error (.noFailDescr op)

theorem GuardKind.exists_ofOpCode (driver : Nat) {op : OpCode} (h : op.isGuard = true) :
    ∃ kind, GuardKind.ofOpCode driver op = .ok kind := by
  unfold ofOpCode
  split
  case h_5 => exact ⟨.plain, if_pos h⟩
  all_goals exact ⟨_, rfl⟩

def GuardTable.invent (t : GuardTable) (driver : Nat) (op : OpCode) (data : ResumeData := {}) :
    Except Fault (Guard × GuardTable) := do
  let kind ← GuardKind.ofOpCode driver op
  return t.make op kind data

/-- Addresses of guards by their `id`: one after the other. -/
def Guard.inOrder (id : Nat) : UInt64 := UInt64.ofNat (id + 1)

/--
The hash of a value observed at a guard. The address of the guard and the value are spread over the
table by two odd factors, so that the values of one guard, and the guards among each other, seldom
share a count.
-/
def Guard.valueHash (g : Guard) (n : UInt64) (addresses : Nat → UInt64 := Guard.inOrder) : UInt32 :=
  (addresses g.id * 777767777 + n * 1442968193).toUInt32

def foldFloat (bits : UInt64) : UInt64 := bits ^^^ (bits >>> 32)

def DeadFrame.observed (f : DeadFrame) (kind : Kind) (index : Nat) : UInt64 :=
  match kind with
  | .int => (f.intAt index).toUInt64
  | .ref => f.refAt index
  | .float => foldFloat (f.floatAt index)
  | .void => 0

/-- The hash under which a failure of a guard is counted. -/
def Counting.hash (c : Counting) (addresses : Nat → UInt64) (g : Guard) (f : DeadFrame) : UInt32 :=
  match c with
  | together hash => hash
  | perValue kind index => g.valueHash (f.observed kind index) addresses

end HotLoop
