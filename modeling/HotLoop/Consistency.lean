import HotLoop.Operation.Text

/-!
# Consistent code

Code is consistent when it ends in a jump or a finish and in no earlier one, when every argument
and fail argument is defined where it is used, and when nothing is defined twice. A label starts
afresh: behind it its arguments are visible and nothing else.
-/

namespace HotLoop

inductive ConsistencyError where
  | undefinedValue (op : OpCode) (value : Var)
  | redefined (value : Var)
  | duplicateInput (value : Var)
  | missingFinalOp
  | earlyFinalOp (op : OpCode)
  deriving DecidableEq, Repr, Inhabited

namespace ConsistencyError

def describe (v : Var) : String :=
  s!"Var \x7b id: ValueId({v.id}), ty: {v.kind.title} \x7d"

def message : ConsistencyError → String
  | undefinedValue op v => s!"{op.name} uses {describe v} before it is defined"
  | redefined v => s!"{describe v} is defined twice"
  | duplicateInput v => s!"input {describe v} appears twice"
  | missingFinalOp => "trace does not end with jump or finish"
  | earlyFinalOp op => s!"{op.name} appears before the end of the trace"

end ConsistencyError

/-- The first variable of a list whose number is not among the visible ones. -/
def firstHidden? (seen : List Nat) (vars : List Var) : Option Var :=
  vars.find? fun v => !seen.contains v.id

def checkInputs (seen : List Nat) : List Var → Except ConsistencyError (List Nat)
  | [] => .ok seen
  | v :: vs =>
    if seen.contains v.id then .error (.duplicateInput v) else checkInputs (v.id :: seen) vs

/-- What is visible behind an operation of which all uses are visible in `seen`. -/
def visibleAfter (seen : List Nat) (op : Operation) : Except ConsistencyError (List Nat) :=
  if op.opcode = .label then .ok (op.argVars.map (·.id))
  else match op.result with
    | none => .ok seen
    | some r => if seen.contains r.id then .error (.redefined r) else .ok (r.id :: seen)

/-- The operations one by one, where the numbers in `seen` are visible at the first. -/
def checkOps (seen : List Nat) : List Operation → Except ConsistencyError Unit
  | [] => .ok ()
  | op :: rest =>
    if op.isFinal && !rest.isEmpty then .error (.earlyFinalOp op.opcode)
    else match firstHidden? seen (op.argVars ++ op.failVars) with
      | some v => .error (.undefinedValue op.opcode v)
      | none =>
        match visibleAfter seen op with
        | .error e => .error e
        | .ok seen' => checkOps seen' rest

/-- Consistency of operations that start where the numbers in `seen` are visible. -/
def checkBranch (seen : List Nat) (ops : List Operation) : Except ConsistencyError Unit :=
  match ops.getLast? with
  | none => .error .missingFinalOp
  | some last => if last.isFinal then checkOps seen ops else .error .missingFinalOp

/-- Consistency of operations behind their inputs. -/
def checkCode (inputs : List Var) (ops : List Operation) : Except ConsistencyError Unit :=
  match checkInputs [] inputs with
  | .error e => .error e
  | .ok seen => checkBranch seen ops

end HotLoop
