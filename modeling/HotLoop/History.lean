import HotLoop.Stop

/-!
# Histories

The tracer records a history: the inputs with their run-time values, then one operation after
another. Variables are numbered from a counter; numbers chosen by a caller are reserved, so that
the counter stays above all of them.
-/

namespace HotLoop

/-- Hands out the numbers of fresh variables. -/
structure ValueIds where
  next : Nat := 0
  deriving DecidableEq, Repr, Inhabited

namespace ValueIds

/-- Numbers are 32-bit words, and the counter has to stay one too. -/
def limit : Nat := 0xffffffff

def fresh (ids : ValueIds) (k : Kind) : Except Fault (Var × ValueIds) :=
  if ids.next < limit then .ok (⟨ids.next, k⟩, ⟨ids.next + 1⟩) else .error .valuesExhausted

/-- Puts the counter above the number of `v`. -/
def reserve (ids : ValueIds) (v : Var) : Except Fault ValueIds :=
  if v.id < ids.next then .ok ids
  else if v.id < limit then .ok ⟨v.id + 1⟩
  else .error .valuesExhausted

theorem fresh_eq_ok {ids ids' : ValueIds} {k : Kind} {v : Var} (h : ids.fresh k = .ok (v, ids')) :
    v = ⟨ids.next, k⟩ ∧ ids'.next = ids.next + 1 := by
  unfold fresh at h
  split at h
  · cases h; exact ⟨rfl, rfl⟩
  · cases h

theorem lt_next_of_reserve {ids ids' : ValueIds} {v : Var} (h : ids.reserve v = .ok ids') :
    v.id < ids'.next ∧ ids.next ≤ ids'.next := by
  unfold reserve at h
  split at h
  · cases h; exact ⟨by assumption, Nat.le_refl _⟩
  · split at h
    · cases h; exact ⟨Nat.lt_succ_self _, by dsimp; omega⟩
    · cases h

end ValueIds

/-- An input of a history with its run-time value. -/
structure InputArg where
  var : Var
  value : Value
  deriving DecidableEq, Repr, Inhabited

structure History where
  inputs : List InputArg := []
  operations : List Operation := []
  values : ValueIds := {}
  deriving Repr, Inhabited

namespace History

def inputVars (h : History) : List Var := h.inputs.map (·.var)

def addInput (h : History) (value : Value) : Except Fault (Var × History) := do
  let (v, values) ← h.values.fresh value.kind
  return (v, { h with values, inputs := h.inputs ++ [⟨v, value⟩] })

/-- A new input with a number chosen by the caller. -/
def addInputVar (h : History) (v : Var) (value : Value) : Except Fault History := do
  let values ← h.values.reserve v
  return { h with values, inputs := h.inputs ++ [⟨v, value⟩] }

/-- A new operation; its result, unless void, gets a fresh number. -/
def record (h : History) (opcode : OpCode) (args : List Arg) (k : Kind) :
    Except Fault (Option Var × History) := do
  if k = .void then
    return (none, { h with operations := h.operations ++ [{ opcode, args }] })
  else
    let (v, values) ← h.values.fresh k
    let op : Operation := { opcode, args, result := some v }
    return (some v, { h with values, operations := h.operations ++ [op] })

/-- A new guard that fails with the given variables. -/
def recordGuard (h : History) (opcode : OpCode) (args : List Arg) (fail : List Var) :
    Except Fault History :=
  if opcode.isGuard then
    let op : Operation := { opcode, args, failArgs := some (fail.map some) }
    .ok { h with operations := h.operations ++ [op] }
  else .error (.notAGuard opcode)

/-- A finished operation, whose result number is reserved. -/
def recordOp (h : History) (op : Operation) : Except Fault History := do
  let values ← match op.result with
    | some v => h.values.reserve v
    | none => .ok h.values
  return { h with values, operations := h.operations ++ [op] }

def recordOps (h : History) (ops : List Operation) : Except Fault History :=
  ops.foldlM recordOp h

def endsWithJump (h : History) : Bool :=
  match h.operations.getLast? with
  | some op => op.opcode = .jump
  | none => false

end History

end HotLoop
