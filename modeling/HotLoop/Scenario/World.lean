import HotLoop.Compile.Session
import HotLoop.Resume.Heap

/-!
# The world of a script

A script drives a context step by step and names what it makes by numbers. The world holds the
context and these numbers. A step ends with a result, with a stop of the library, or it is refused
because the script is malformed.
-/

namespace HotLoop.Scenario

inductive Refusal where
  | input (what : String)
  | stop (stop : Stop)
  deriving Inhabited

/-- What a script has made so far. Units, guards, sessions and traces are numbered in the order in
which they became known. -/
structure World where
  context : Context
  drivers : List Driver := []
  units : List UnitHandle := []
  guards : List Guard := []
  sessions : List Session := []
  traces : List Trace := []
  heap : LoggedHeap Arena := ⟨{}, []⟩
  /-- How much of the backend's log and of the statistics has been told. -/
  loopsSeen : Nat := 0
  bridgesSeen : Nat := 0
  freedSeen : Nat := 0
  statsSeen : Stats := {}
  deriving Inhabited

abbrev Step := ExceptT Refusal (StateM World)

def refuse {α : Type} (what : String) : Step α := throw (.input what)

def fault {α : Type} (f : Fault) : Step α := throw (.stop (.fault f))

def need {α : Type} (what : String) : Option α → Step α
  | some a => return a
  | none => refuse what

def ofFault {α : Type} : Except Fault α → Step α
  | .ok a => return a
  | .error f => fault f

def attempt {α : Type} (x : Step α) : Step (Except Refusal α) :=
  tryCatch (Except.ok <$> x) fun e => return .error e

def context : Step Context := do return (← get).context

def setContext (c : Context) : Step Unit := modify fun w => { w with context := c }

/-- A unit by its number; a negative number is the dangling handle. -/
def unitOf (n : Int) : Step UnitHandle := do
  if n < 0 then return .dangling else need "unit" (← get).units[n.toNat]?

def inventGuard (driver : Nat) (op : OpCode) (data : ResumeData) : Step Guard := do
  let c ← context
  let (g, guards) ← ofFault (c.guards.invent driver op data)
  setContext { c with guards }
  return g

def makeEntry (unit : UnitHandle) (kinds : List Kind) (home : Option UnitHandle) :
    Step EntryPoint := do
  let c ← context
  let (e, entries) := c.entries.make unit kinds home
  setContext { c with entries }
  return e

/-- A new unit with entry points of the given kinds. -/
def makeUnit (driver : Nat) (entries : List (List Kind)) : Step UnitHandle := do
  let c ← context
  let (unit, registry) := c.registry.make driver
  setContext { c with registry }
  let entries ← entries.mapM fun kinds => makeEntry unit kinds (some unit)
  modify fun w => { w with
    context := w.context.modifyUnit unit fun u => { u with entries }
    units := w.units ++ [unit] }
  return unit

def discover : Step Unit :=
  modify fun w =>
    let new := w.context.registry.liveHandles.filter (!w.units.contains ·)
    { w with units := w.units ++ new }

def learnGuard (g : Guard) : Step Unit :=
  modify fun w => if w.guards.contains g then w else { w with guards := w.guards ++ [g] }

/-- Runs a computation of the library on a part of the world. -/
def within {σ α : Type} (view : World → σ) (put : σ → World → World) (x : JitM σ α) :
    Step α := do
  let (result, t) := x (view (← get))
  modify (put t)
  match result with
  | .ok a => return a
  | .error e => throw (.stop e)

/-- Runs a compile call in a session. The session is kept even if the call fails, but not if it is
cut off by a fault. -/
def compiling {α : Type} (session : Session) (keep : Session → List Session → List Session)
    (x : CompileM α) : Step α := do
  let (result, b) := x ⟨← context, session⟩
  setContext b.context
  if let .error (.fault f) := result then
    fault f
  modify fun w => { w with sessions := keep b.session w.sessions }
  match result with
  | .ok a => return a
  | .error e => throw (.stop e)

end HotLoop.Scenario
