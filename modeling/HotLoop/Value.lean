/-!
# Values of a trace

A trace computes on machine integers, references and binary64 floats. A value is named inside a
trace by a *variable*: a number together with the kind of the value. Floats are carried by their
64 bits, so that two constants are equal exactly when their bits are.
-/

namespace HotLoop

/-- The kinds of values; `void` is the kind of an operation without a result. -/
inductive Kind where
  | int
  | ref
  | float
  | void
  deriving DecidableEq, Repr, Inhabited

namespace Kind

/-- The letter that the name of a variable of this kind starts with. -/
def letter : Kind → Char
  | int => 'i'
  | ref => 'p'
  | float => 'f'
  | void => 'v'

def ofLetter? : Char → Option Kind
  | 'i' => some int
  | 'p' => some ref
  | 'f' => some float
  | 'v' => some void
  | _ => none

def name : Kind → String
  | int => "int"
  | ref => "ref"
  | float => "float"
  | void => "void"

/-- The name of a kind inside the printed form of a descriptor. -/
def title : Kind → String
  | int => "Int"
  | ref => "Ref"
  | float => "Float"
  | void => "Void"

def all : List Kind := [int, ref, float, void]

def ofName? (s : String) : Option Kind := all.find? (·.name == s)

def rank : Kind → Nat
  | int => 0
  | ref => 1
  | float => 2
  | void => 3

theorem ofLetter?_letter (k : Kind) : ofLetter? k.letter = some k := by
  cases k <;> rfl

end Kind

/-- A run-time value or a constant. References are addresses, floats are their bits. -/
inductive Value where
  | int (n : Int64)
  | ref (address : UInt64)
  | float (bits : UInt64)
  | void
  deriving DecidableEq, Repr, Inhabited

namespace Value

def null : Value := .ref 0

def kind : Value → Kind
  | int _ => .int
  | ref _ => .ref
  | float _ => .float
  | void => .void

def int? : Value → Option Int64
  | int n => some n
  | _ => none

def ref? : Value → Option UInt64
  | ref a => some a
  | _ => none

def float? : Value → Option UInt64
  | float b => some b
  | _ => none

/-- The word that stands for a value where only its bits count. -/
def word : Value → UInt64
  | int n => n.toUInt64
  | ref a => a
  | float b => b
  | void => 0

def sameConstant (a b : Value) : Bool := a == b

end Value

def Kind.zero : Kind → Value
  | int => .int 0
  | ref => .null
  | float => .float 0
  | void => .void

@[simp] theorem Kind.kind_zero (k : Kind) : k.zero.kind = k := by
  cases k <;> rfl

structure Var where
  id : Nat
  kind : Kind
  deriving DecidableEq, Repr, Inhabited

inductive Arg where
  | var (v : Var)
  | const (c : Value)
  deriving DecidableEq, Repr, Inhabited

namespace Arg

def int (n : Int64) : Arg := .const (.int n)

def kind : Arg → Kind
  | var v => v.kind
  | const c => c.kind

def var? : Arg → Option Var
  | var v => some v
  | const _ => none

def const? : Arg → Option Value
  | var _ => none
  | const c => some c

theorem var?_eq_some_iff {a : Arg} {v : Var} : a.var? = some v ↔ a = .var v := by
  cases a <;> simp [var?]

theorem mem_filterMap_var?_iff {args : List Arg} {v : Var} :
    v ∈ args.filterMap var? ↔ .var v ∈ args := by
  simp [List.mem_filterMap, var?_eq_some_iff]

end Arg

end HotLoop
