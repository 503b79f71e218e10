import HotLoop.EntryPoints
import HotLoop.Guard
import HotLoop.Optimize.Fold
import HotLoop.OptSet
import HotLoop.Trace

/-!
# The forward pass

One walk over the operations of a trace. Copies vanish, operations and guards that are known from
constant arguments are folded, and a guard that compares with a constant makes the constant known
behind it. A guard that survives gets its descriptor, its resume data and a counter. When a loop is
walked a second time every result gets a fresh number and every guard a copy of its descriptor.
-/

namespace HotLoop

/-- The parts of a context that optimizing changes. -/
structure OptState where
  values : ValueIds := {}
  counter : Counter
  guards : GuardTable := {}
  entries : EntryTable := {}
  deriving Repr, Inhabited

structure PassSettings where
  driver : Nat
  opts : OptSet
  memo : PureMemo := .empty
  /-- Every result gets a fresh number, every guard a copy of its descriptor. -/
  renames : Bool := false

structure Pass where
  shared : OptState
  forwarding : Forwarding := .empty
  out : List Operation := []
  deps : FieldSet := []
  /-- A guard for the quasi-immutable fields is among the output. -/
  guarded : Bool := false
  deriving Inhabited

/-- What becomes of an operation whose arguments have been resolved. -/
inductive Fate where
  | drop
  | replace (result : Var) (value : Arg)
  | keep (op : Operation)
  deriving DecidableEq, Repr

/-- The value of the result of an operation, if the settings let it be known from `op`. -/
def knownResult? (s : PassSettings) (op : Operation) : Option Value :=
  if op.opcode = .callPure then
    if s.opts.contains .pure then s.memo.lookup? op.args else none
  else if op.opcode.isFoldable && s.opts.contains .simplify then
    (foldArgs? op.opcode op.args).map .int
  else none

/-- What becomes of a resolved operation; `guarded` as in the state of the pass. -/
def fate (s : PassSettings) (guarded : Bool) (op : Operation) : Except Rejection Fate :=
  match op.opcode with
  | .sameAs =>
    match op.result, op.args with
    | none, _ => .ok .drop
    | some r, a :: _ => .ok (.replace r a)
    | some _, [] => .error (.fault (.missingArgument .sameAs))
  | .quasiimmutField => .ok (if guarded then .drop else .keep { opcode := .guardNotInvalidated })
  | .guardNotInvalidated => .ok (if guarded then .drop else .keep op)
  | opcode =>
    if opcode.isGuard then
      match guardOutcome? opcode op.args with
      | some true => .ok .drop
      | some false => .error (.invalid (.guardAlwaysFails op))
      | none => .ok (.keep op)
    else
      match op.result, knownResult? s op with
      | some r, some v => .ok (.replace r (.const v))
      | _, _ => .ok (.keep op)

/-- The field that an operation makes the trace rely on. -/
def Operation.dependency? (op : Operation) : Option Nat :=
  match op.opcode, op.descr with
  | .quasiimmutField, some (.quasiImmut field) => some field
  | _, _ => none

/-- Does an operation leave a guard for the quasi-immutable fields in the output? -/
def Operation.guardsFields (op : Operation) : Bool :=
  op.opcode = .quasiimmutField || op.opcode = .guardNotInvalidated

/-- What a guard that compares a variable with a constant makes known behind it. -/
def Operation.learned? (op : Operation) : Option (Var × Arg) :=
  match op.opcode, op.args with
  | .guardValue, [.var v, .const c] => some (v, .const c)
  | _, _ => none

/-- The slots of a guard's resume data: numbering, constants, and the variables to be kept. -/
structure NumberedSlots where
  numbering : List Tagged := []
  consts : List Value := []
  boxes : List (Option Var) := []
  deriving Repr, Inhabited

namespace NumberedSlots

/-- One more slot. A variable is found in the frame, a constant in the resume data. -/
def push (t : Forwarding) (n : NumberedSlots) (slot : Option Var) : NumberedSlots :=
  match slot.map fun v => t.resolve (.var v) with
  | none => ⟨n.numbering ++ [.null], n.consts, n.boxes ++ [none]⟩
  | some (.var v) => ⟨n.numbering ++ [.box n.boxes.length], n.consts, n.boxes ++ [some v]⟩
  | some (.const c) =>
    ⟨n.numbering ++ [.const n.consts.length], n.consts ++ [c], n.boxes ++ [none]⟩

/-- The recorded slots under a forwarding table. -/
def ofSlots (t : Forwarding) (slots : List (Option Var)) : NumberedSlots :=
  slots.foldl (push t) {}

end NumberedSlots

namespace Pass

def forward (v : Var) (a : Arg) : PassM Pass Unit :=
  modify fun p => { p with forwarding := p.forwarding.forward v a }

def fresh (k : Kind) : PassM Pass Var := do
  let p ← get
  match p.shared.values.fresh k with
  | .ok (v, values) =>
    set { p with shared := { p.shared with values } }
    return v
  | .error e => throw (.fault e)

/-- The guard of a surviving guard operation: its own, a copy of it, or a new one. -/
def guardFor (s : PassSettings) (op : Operation) : PassM Pass Guard := do
  let p ← get
  let guards := p.shared.guards
  match op.guard? with
  | some g =>
    if s.renames then
      let (g, guards) := guards.make g.opcode g.kind (guards.get g).data
      set { p with shared := { p.shared with guards } }
      return g
    else
      return g
  | none =>
    match guards.invent s.driver op.opcode with
    | .ok (g, guards) =>
      set { p with shared := { p.shared with guards } }
      return g
    | .error e => throw (.fault e)

/-- Gives a surviving guard its descriptor, resume data and counter. -/
def finishGuard (s : PassSettings) (op : Operation) (recorded : List (Option Var)) :
    PassM Pass Operation := do
  if let some (.final _) := op.descr then
    return op
  let g ← guardFor s op
  let p ← get
  let slots := NumberedSlots.ofSlots p.forwarding recorded
  let data := { (p.shared.guards.get g).data with
    numbering := slots.numbering
    consts := slots.consts
    count := slots.boxes.length }
  let guards := p.shared.guards.setData g data
  let (op, guards, counter) := guards.storeBoxes p.shared.counter g op slots.boxes
  set { p with shared := { p.shared with guards, counter } }
  if op.opcode = .guardValue then
    match guards.countPerValue g op with
    | .ok guards => modify fun p => { p with shared := { p.shared with guards } }
    | .error e => throw (.fault e)
  return { op with descr := some (.guard g) }

/-- Appends a surviving operation to the output. -/
def keep (s : PassSettings) (op : Operation) (recorded : List (Option Var)) :
    PassM Pass Unit := do
  let op ← match s.renames, op.result with
    | true, some r => do
      let v ← fresh r.kind
      forward r (.var v)
      pure { op with result := some v }
    | _, _ => pure op
  let op ← if op.isGuard then finishGuard s op recorded else pure op
  modify fun p => { p with out := p.out ++ [op] }
  if let some (v, c) := op.learned? then
    forward v c

def step (s : PassSettings) (recorded : Operation) : PassM Pass Unit := do
  let p ← get
  let op := p.forwarding.apply recorded
  if let some field := op.dependency? then
    modify fun p => { p with deps := p.deps.insert field }
  match fate s p.guarded op with
  | .error e => throw e
  | .ok .drop => return ()
  | .ok (.replace r a) => forward r a
  | .ok (.keep op') =>
    if op.guardsFields then
      modify fun p => { p with guarded := true }
    keep s op' recorded.failSlots

/--
The operations up to the first that ends the trace. That one is resolved and handed back, but not
put into the output.
-/
def run (s : PassSettings) : List Operation → PassM Pass (Option Operation)
  | [] => return none
  | op :: rest =>
    if op.isFinal then do
      let p ← get
      return some (p.forwarding.apply op)
    else do
      step s op
      run s rest

end Pass

end HotLoop
