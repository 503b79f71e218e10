import HotLoop.Forwarding
import HotLoop.History

/-!
# Traces

A trace is a loop or a bridge under construction: its inputs and operations, the replacements that
still have to be made in them, and what it assumes. It is attached to a unit while it is submitted.
-/

namespace HotLoop

/-- A set of quasi-immutable fields as an increasing list. -/
abbrev FieldSet := List Nat

namespace FieldSet

def insert (f : Nat) : FieldSet → FieldSet
  | [] => [f]
  | g :: gs => if f < g then f :: g :: gs else if f = g then g :: gs else g :: insert f gs

def ofList (fs : List Nat) : FieldSet := fs.foldl (fun s f => insert f s) []

def union (s t : FieldSet) : FieldSet := t.foldl (fun s f => insert f s) s

theorem mem_insert {f g : Nat} {s : FieldSet} : g ∈ insert f s ↔ g = f ∨ g ∈ s := by
  induction s with
  | nil => simp [insert]
  | cons h s ih =>
    unfold insert
    split
    · simp
    · split
      · subst_vars; simp
      · simp only [List.mem_cons, ih]; grind

end FieldSet

/-- A loop or bridge on its way to the backend. -/
structure Trace where
  name : String
  inputs : List Var := []
  operations : List Operation := []
  home : Option UnitHandle := none
  deps : FieldSet := []
  /-- Replacements not yet made; none is left once the trace reaches the backend. -/
  forwarding : Forwarding := .empty
  values : ValueIds := {}
  number : Option Nat := none
  deriving Repr, Inhabited

namespace Trace

/-- Makes every pending replacement in the operations. -/
def forgetForwarding (t : Trace) : Trace :=
  if t.forwarding.isEmpty then t
  else { t with operations := t.operations.map t.forwarding.apply, forwarding := .empty }

def check (t : Trace) : Except ConsistencyError Unit := checkCode t.inputs t.operations

/-- Consistency as a bridge, whose inputs may repeat. -/
def checkAsBranch (t : Trace) : Except ConsistencyError Unit :=
  checkBranch (t.inputs.map (·.id)) t.operations

def lines (t : Trace) : List String := codeLines t.inputs t.operations

end Trace

/-- The operations with one more, resolved through a forwarding table. -/
def emit (ops : List Operation) (t : Forwarding) (op : Operation) : List Operation :=
  ops ++ [t.apply op]

end HotLoop
