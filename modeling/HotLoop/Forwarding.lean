import HotLoop.Operation.Basic
import HotLoop.Table

/-!
# Forwarding

While a trace is changed, a forwarding table says what the later uses of a variable mean: another
variable or a constant. Replacements are followed to the end of their chain. A walk makes at most
one step more than the table has entries, which is enough for every chain without a cycle.
-/

namespace HotLoop

structure Forwarding where
  replacements : Table Nat Arg := .empty
  deriving Repr, Inhabited

namespace Forwarding

def empty : Forwarding := {}

def size (t : Forwarding) : Nat := t.replacements.size

def isEmpty (t : Forwarding) : Bool := t.size == 0

def get? (t : Forwarding) (v : Var) : Option Arg := t.replacements.get? v.id

/-- Replaces every later use of `v` by `a`; a variable is not replaced by itself. -/
def forward (t : Forwarding) (v : Var) (a : Arg) : Forwarding :=
  if a = .var v then t else ⟨t.replacements.insert v.id a⟩

theorem get?_forward (t : Forwarding) (v w : Var) (a : Arg) :
    (t.forward v a).get? w = if a ≠ .var v ∧ w.id = v.id then some a else t.get? w := by
  unfold forward
  split
  · simp_all
  · simp_all [get?, Table.get?_insert]

theorem get?_forward_ne_none {t : Forwarding} {v w : Var} {a : Arg} (h : t.get? w ≠ none) :
    (t.forward v a).get? w ≠ none := by
  rw [get?_forward]
  split
  · exact Option.some_ne_none a
  · exact h

/-- Replaces variables by others, from the first pair to the last. -/
def rename (t : Forwarding) (pairs : List (Var × Var)) : Forwarding :=
  pairs.foldl (fun t e => t.forward e.1 (.var e.2)) t

/-- At most `n` steps along a chain of replacements. -/
def follow (t : Forwarding) : Nat → Arg → Arg
  | n + 1, .var v =>
    match t.get? v with
    | some a => t.follow n a
    | none => .var v
  | _, a => a

/-- The end of the chain of replacements that starts at an argument. -/
def resolve (t : Forwarding) (a : Arg) : Arg := t.follow (t.size + 1) a

/-- The end of a chain where only a variable can stand: one that ends in a constant is kept. -/
def resolveVar (t : Forwarding) (v : Var) : Var := (t.resolve (.var v)).var?.getD v

/-- The operation with its arguments and fail arguments resolved. -/
def apply (t : Forwarding) (op : Operation) : Operation :=
  { op with
    args := op.args.map t.resolve
    failArgs := op.failArgs.map (·.map (·.map t.resolveVar)) }

@[simp] theorem follow_const (t : Forwarding) (n : Nat) (c : Value) :
    t.follow n (.const c) = .const c := by
  cases n <;> rfl

@[simp] theorem resolve_const (t : Forwarding) (c : Value) : t.resolve (.const c) = .const c :=
  follow_const t _ c

theorem resolve_of_get?_none {t : Forwarding} {v : Var} (h : t.get? v = none) :
    t.resolve (.var v) = .var v := by
  simp [resolve, follow, h]

theorem exists_var_of_resolve {t : Forwarding} {a : Arg} {w : Var} (h : t.resolve a = .var w) :
    ∃ v, a = .var v := by
  cases a with
  | const c =>
    rw [resolve_const] at h
    cases h
  | var v => exact ⟨v, rfl⟩

theorem mem_map_resolve_iff {t : Forwarding} {args : List Arg} {w : Var} :
    .var w ∈ args.map t.resolve ↔ ∃ v, .var v ∈ args ∧ t.resolve (.var v) = .var w := by
  refine List.mem_map.trans ⟨?_, fun ⟨v, hv, hw⟩ => ⟨.var v, hv, hw⟩⟩
  rintro ⟨a, ha, hw⟩
  obtain ⟨v, rfl⟩ := exists_var_of_resolve hw
  exact ⟨v, ha, hw⟩

/-- What holds of a variable and of all that entries lead to holds of the end of its chain. -/
theorem resolve_of_values {t : Forwarding} {P : Var → Prop}
    (h : ∀ v w, t.get? v = some (.var w) → P w) {v w : Var} (hv : P v)
    (hw : t.resolve (.var v) = .var w) : P w := by
  unfold resolve at hw
  generalize t.size + 1 = n at hw
  induction n generalizing v with
  | zero =>
    cases hw
    exact hv
  | succ n ih =>
    rw [follow] at hw
    cases hget : t.get? v with
    | none =>
      rw [hget] at hw
      cases hw
      exact hv
    | some a =>
      rw [hget] at hw
      dsimp only at hw
      cases a with
      | const c =>
        rw [follow_const] at hw
        cases hw
      | var u => exact ih (h v u hget) hw

@[simp] theorem apply_opcode (t : Forwarding) (op : Operation) : (t.apply op).opcode = op.opcode :=
  rfl

end Forwarding

end HotLoop
