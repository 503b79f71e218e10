import HotLoop.Optimize.Pass
import HotLoop.Registry

/-!
# Optimizing a trace

The four ways in which a trace is optimized. A simple trace is walked once. A loop that is to be
unrolled is walked once as a preamble, and once more as the loop proper: that one starts at a header
of its own, which takes over what the preamble ends with. A bridge has to find an entry point of
the unit that it jumps to; without one it ends like a preamble, and the loop has to be traced again.
-/

namespace HotLoop

/-- What a preamble hands on to the loop behind it. -/
structure ExportedState where
  inputs : List Var := []
  endArgs : List Arg := []
  deps : FieldSet := []
  deriving DecidableEq, Repr, Inhabited

structure LoopHeader where
  vars : List Var
  entry : EntryPoint
  /-- Copies to be made just before the header. -/
  copies : List Operation
  deriving Repr, Inhabited

def LoopHeader.label (h : LoopHeader) : Operation := .label h.vars (.target h.entry)

structure Optimized where
  inputs : List Var
  operations : List Operation
  deps : FieldSet
  header : Option LoopHeader := none
  /-- What is handed on, if the operations are not complete by themselves. -/
  state : Option ExportedState := none
  deriving Repr, Inhabited

namespace Optimized

def isFinal (o : Optimized) : Bool := o.state.isNone

/-- Operations that stop where a loop begins. -/
def ofState (s : ExportedState) (operations : List Operation) : Optimized :=
  { inputs := s.inputs, operations, deps := s.deps, state := some s }

end Optimized

namespace Pass

def ofShared (shared : OptState) : Pass := { shared }

/-- A trace that is walked once, with whatever ends it. -/
def simple (s : PassSettings) (inputs : List Var) (ops : List Operation) :
    PassM Pass Optimized := do
  let last ← run s ops
  let p ← get
  return { inputs, operations := p.out ++ last.toList, deps := p.deps }

/-- The first walk over a loop that goes round with `endArgs`. -/
def preamble (s : PassSettings) (inputs : List Var) (endArgs : List Arg) (ops : List Operation) :
    PassM Pass (ExportedState × List Operation) := do
  let _ ← run s ops
  let p ← get
  return ({ inputs, endArgs := endArgs.map p.forwarding.resolve, deps := p.deps }, p.out)

/--
The variable that the header can take for the value `a` at index `i` as it is: `a` itself, if it is
a variable that the header does not have yet and that is no input of the loop at another index.
-/
def reusable? (inputs header : List Var) (i : Nat) : Arg → Option Var
  | .var v =>
    if header.contains v || (inputs.eraseIdx i).any (·.id == v.id) then none else some v
  | .const _ => none

/-- Adds the header variable for one value; what cannot be reused is copied to a fresh variable. -/
def extendHeader (inputs : List Var) (header : List Var × List Operation) (a : Arg × Nat) :
    PassM Pass (List Var × List Operation) :=
  match reusable? inputs header.1 a.2 a.1 with
  | some v => return (header.1 ++ [v], header.2)
  | none => do
    let v ← fresh a.1.kind
    return (header.1 ++ [v], header.2 ++ [{ opcode := .sameAs, args := [a.1], result := some v }])

/--
The second walk over a loop, entered with the state of its preamble and closed by `closing`. The
inputs become the variables of the header, and the closing jump goes there.
-/
def peeled (s : PassSettings) (inputs : List Var) (closing : Operation) (ops : List Operation)
    (state : ExportedState) : PassM Pass Optimized := do
  let some (.cell unit) := closing.descr | throw (.invalid .notClosingOnUnit)
  if inputs.length ≠ state.endArgs.length then throw (.invalid .headerArity)
  let (vars, copies) ← state.endArgs.zipIdx.foldlM (extendHeader inputs) ([], [])
  modify fun p => { p with forwarding := p.forwarding.rename (inputs.zip vars) }
  let _ ← run { s with renames := true } ops
  let p ← get
  let jump := p.forwarding.apply closing
  if jump.args.length ≠ vars.length then throw (.invalid .jumpArity)
  let (entry, entries) := p.shared.entries.make unit (vars.map (·.kind))
  set { p with shared := { p.shared with entries } }
  return {
    inputs
    operations := p.out ++ [{ jump with descr := some (.target entry) }]
    deps := p.deps
    header := some ⟨vars, entry, copies⟩ }

/--
The entry point that a jump with arguments of the given kinds can go to: the latest that fits, or
the first one and no other if the loop has to be entered through its preamble.
-/
def pickEntry? (entries : List EntryPoint) (kinds : List Kind) (anyEntry : Bool) :
    Option EntryPoint :=
  if anyEntry then entries.reverse.find? (·.argKinds == kinds)
  else entries.head?.filter (·.argKinds == kinds)

/-- The unit that the closing jump of a bridge goes to. -/
def targetUnit? : Option Descr → Option UnitHandle
  | some (.cell unit) => some unit
  | some (.target entry) => some entry.owner
  | _ => none

/-- A trace that ends in a jump to a unit. -/
def bridge (s : PassSettings) (registry : Registry) (inputs : List Var) (ops : List Operation)
    (anyEntry : Bool) : PassM Pass Optimized := do
  let last ← run s ops
  let some jump := last.filter (·.opcode == .jump) | throw (.invalid .noClosingJump)
  let some unit := targetUnit? jump.descr | throw (.invalid .noTargetUnit)
  let p ← get
  let entries := ((registry.get? unit).map (·.entries)).getD []
  match pickEntry? entries (jump.args.map Arg.kind) anyEntry with
  | some entry =>
    return {
      inputs
      operations := p.out ++ [{ jump with descr := some (.target entry) }]
      deps := p.deps }
  | none =>
    return .ofState { inputs, endArgs := jump.args, deps := p.deps } p.out

end Pass

inductive PassKind where
  | simple
  /-- The first walk over a loop that goes round with `endArgs`. -/
  | preamble (endArgs : List Arg)
  /-- A trace that jumps to a unit, at any entry point that fits or at the first only. -/
  | bridge (anyEntry : Bool)
  | peeled (closing : Operation) (state : ExportedState)
  deriving Repr, Inhabited

namespace PassKind

def name : PassKind → String
  | simple => "simple"
  | preamble _ => "preamble"
  | bridge _ => "bridge"
  | peeled _ _ => "peeled loop"

/--
Optimizes a trace in the given way. With unrolling switched off a loop has no preamble and is
walked like a simple trace, and there can be no second walk.
-/
def optimize (kind : PassKind) (s : PassSettings) (registry : Registry) (inputs : List Var)
    (ops : List Operation) : PassM Pass Optimized :=
  match kind with
  | simple => Pass.simple s inputs ops
  | preamble endArgs =>
    if s.opts.contains .unroll then do
      let (state, ops) ← Pass.preamble s inputs endArgs ops
      return .ofState state ops
    else Pass.simple s inputs ops
  | bridge anyEntry => Pass.bridge s registry inputs ops anyEntry
  | peeled closing state =>
    if s.opts.contains .unroll then Pass.peeled s inputs closing ops state
    else throw (.fault .unrollingOff)

end PassKind

end HotLoop
