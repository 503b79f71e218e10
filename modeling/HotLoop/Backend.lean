import HotLoop.Frame
import HotLoop.Registry
import HotLoop.Stop
import HotLoop.Table

/-!
# The backend

A backend that generates no code. It keeps every submitted operation list, hands out addresses,
and plays the running machine code: frames parked under a token can be forced and handed back.
-/

namespace HotLoop

structure CompiledLoop where
  unit : UnitHandle
  driver : Nat
  name : String
  inputs : List Var
  operations : List Operation
  code : CodeRange
  deriving Repr, Inhabited

/-- A submitted bridge; it leaves `guard` in the code of `home`. -/
structure CompiledBridge where
  guard : Guard
  home : UnitHandle
  inputs : List Var
  operations : List Operation
  code : CodeRange
  deriving Repr, Inhabited

structure Backend where
  loops : List CompiledLoop := []
  bridges : List CompiledBridge := []
  freed : List UnitHandle := []
  running : Table UInt64 DeadFrame := .empty
  /-- Frames handed back after forcing. -/
  forced : Table UInt64 DeadFrame := .empty
  reject : Option String := none
  nextAddress : Nat := 0x10000
  deriving Inhabited

namespace Backend

/-- Every operation takes as many bytes of code. -/
def opSize : Nat := 16

def codeAlign : Nat := 0x100

def offsets (ops : List Operation) : List Nat := (List.range ops.length).map (· * opSize)

/-- The least multiple of `codeAlign` that code of a size fits in; code is never empty. -/
def room (size : Nat) : Nat := (max size opSize + codeAlign - 1) / codeAlign * codeAlign

/-- Finds a place for code, unless the submission is to be rejected. -/
def assemble (b : Backend) (what : String) (ops : List Operation) :
    Except JitError CodeRange × Backend :=
  match b.reject with
  | some reason => (.error (.rejected what reason), { b with reject := none })
  | none =>
    let size := ops.length * opSize
    (.ok ⟨b.nextAddress, size⟩, { b with nextAddress := b.nextAddress + room size })

def compileLoop (b : Backend) (driver : Nat) (unit : UnitHandle) (name : String)
    (inputs : List Var) (operations : List Operation) : Except JitError CodeRange × Backend :=
  match b.assemble name operations with
  | (.ok code, b) =>
    (.ok code, { b with loops := b.loops ++ [⟨unit, driver, name, inputs, operations, code⟩] })
  | (.error e, b) => (.error e, b)

def compileBridge (b : Backend) (guard : Guard) (home : UnitHandle) (inputs : List Var)
    (operations : List Operation) : Except JitError CodeRange × Backend :=
  match b.assemble "bridge" operations with
  | (.ok code, b) =>
    (.ok code, { b with bridges := b.bridges ++ [⟨guard, home, inputs, operations, code⟩] })
  | (.error e, b) => (.error e, b)

/-- Drops the bridges in the code of a unit. -/
def free (b : Backend) (unit : UnitHandle) : Backend :=
  { b with freed := b.freed ++ [unit], bridges := b.bridges.filter (·.home != unit) }

def park (b : Backend) (token : UInt64) (frame : DeadFrame) : Backend :=
  { b with running := b.running.insert token frame }

/-- Stops the frame that runs under a token. -/
def force (b : Backend) (token : UInt64) : Except JitError DeadFrame × Backend :=
  match b.running.get? token with
  | some frame => (.ok frame, { b with running := b.running.erase token })
  | none => (.error (.unknownForceToken token), b)

/-- Hands a forced frame back. -/
def install (b : Backend) (token : UInt64) (frame : DeadFrame) : Backend :=
  { b with forced := b.forced.insert token frame }

def loopFor? (b : Backend) (unit : UnitHandle) : Option CompiledLoop :=
  b.loops.reverse.find? (·.unit == unit)

def guardsOf (b : Backend) (unit : UnitHandle) : List Guard :=
  ((b.loopFor? unit).map fun l => guardsIn l.operations).getD []

def submissions (b : Backend) : Nat := b.loops.length + b.bridges.length

end Backend

end HotLoop
