import HotLoop.Operation.Descr

/-!
# Operations

One operation of a trace, recorded or optimized. Operations never carry the state of a pass: what a
variable has been replaced by is known to a forwarding table alone.
-/

namespace HotLoop

/-- One operation. A missing list of fail arguments differs from an empty one. -/
structure Operation where
  opcode : OpCode
  args : List Arg := []
  result : Option Var := none
  descr : Option Descr := none
  failArgs : Option (List (Option Var)) := none
  deriving DecidableEq, Repr, Inhabited

namespace Operation

def label (vars : List Var) (descr : Descr) : Operation :=
  { opcode := .label, args := vars.map .var, descr := some descr }

def jump (args : List Arg) (descr : Descr) : Operation :=
  { opcode := .jump, args := args, descr := some descr }

def isGuard (op : Operation) : Bool := op.opcode.isGuard

def isFinal (op : Operation) : Bool := op.opcode.isFinal

def kind (op : Operation) : Kind := (op.result.map (·.kind)).getD .void

/-- The slots of the fail arguments, none if the list is missing. -/
def failSlots (op : Operation) : List (Option Var) := op.failArgs.getD []

def argVars (op : Operation) : List Var := op.args.filterMap Arg.var?

def failVars (op : Operation) : List Var := op.failSlots.filterMap id

def guard? (op : Operation) : Option Guard := op.descr.bind Descr.guard?

/-- The entry point that the descriptor names. -/
def target? (op : Operation) : Option EntryPoint := op.descr.bind Descr.target?

@[simp] theorem argVars_label (vars : List Var) (d : Descr) : (label vars d).argVars = vars := by
  simp [label, argVars, List.filterMap_map, Function.comp_def, Arg.var?]

end Operation

/-- The guards that the guard operations of a list carry, in their order. -/
def guardsIn (ops : List Operation) : List Guard :=
  (ops.filter Operation.isGuard).filterMap Operation.guard?

end HotLoop
