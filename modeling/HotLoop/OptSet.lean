import HotLoop.Text.Blank

/-!
# Sets of optimizations

The optimizations of a driver can be switched on and off one by one. A set is written as `all` or
as a list of names with colons between them; blanks around it and empty names do not count.
-/

namespace HotLoop

inductive Optimization where
  | intbounds
  | simplify
  | virtualize
  | string
  | pure
  | earlyforce
  | heap
  | unroll
  deriving DecidableEq, Repr, Inhabited

namespace Optimization

/-- All optimizations, in the order in which sets are written. -/
def all : List Optimization :=
  [intbounds, simplify, virtualize, string, pure, earlyforce, heap, unroll]

def name : Optimization → String
  | intbounds => "intbounds"
  | simplify => "rewrite"
  | virtualize => "virtualize"
  | string => "string"
  | pure => "pure"
  | earlyforce => "earlyforce"
  | heap => "heap"
  | unroll => "unroll"

def ofName? (s : String) : Option Optimization := all.find? (·.name == s)

theorem mem_all (o : Optimization) : o ∈ all := by
  cases o <;> decide

end Optimization

structure OptSet where
  members : List Optimization := []
  deriving DecidableEq, Repr, Inhabited

namespace OptSet

def all : OptSet := ⟨Optimization.all⟩

def empty : OptSet := {}

def contains (s : OptSet) (o : Optimization) : Bool := s.members.contains o

def insert (s : OptSet) (o : Optimization) : OptSet :=
  ⟨Optimization.all.filter fun p => p == o || s.contains p⟩

def without (s : OptSet) (o : Optimization) : OptSet := ⟨s.members.filter (· != o)⟩

theorem contains_insert (s : OptSet) (o p : Optimization) :
    (s.insert o).contains p = (p == o || s.contains p) := by
  rw [Bool.eq_iff_iff]
  simp [contains, insert, Optimization.mem_all]

theorem contains_without (s : OptSet) (o p : Optimization) :
    (s.without o).contains p = (p != o && s.contains p) := by
  rw [Bool.eq_iff_iff]
  simp [contains, without, and_comm]

def text (s : OptSet) : String := ":".intercalate (s.members.map (·.name))

/-- The set of a list of names; the first unknown name is the error. -/
def ofNames (names : List String) : Except String OptSet :=
  names.foldlM (fun s name =>
    match Optimization.ofName? name with
    | some o => .ok (s.insert o)
    | none => .error name) empty

/-- Reads a written set; the error is the first name that is not one of an optimization. -/
def parse (spec : String) : Except String OptSet :=
  let spec := Text.trimBlanks spec.toList
  if spec = "all".toList then .ok all
  else ofNames ((Text.splitOn ':' spec).filter (·.length ≠ 0) |>.map String.ofList)

end OptSet

end HotLoop
