import HotLoop.Optimize.Fold

/-!
# Executing operations

The reference execution of recorded and of compiled operations. A machine is what the execution
leaves open: the state that operations act on, the outcome of the guards that the arguments do not
decide, and whatever the other operations do. An execution goes on from one operation to the next
until a guard fails or until it comes to a label, a jump or a finish, where it stops with the values
of the arguments. Every operation of compiled code stands for a recorded one, and where it fails it
is the recorded one that has failed.
-/

namespace HotLoop

/-- The values of variables, by their numbers. -/
abbrev Env := Nat → Value

namespace Env

def set (ρ : Env) (v : Var) (x : Value) : Env := fun i => if i = v.id then x else ρ i

/-- Gives a value to the variable that an operation defines, if it defines one. -/
def assign (ρ : Env) : Option Var → Value → Env
  | some v, x => ρ.set v x
  | none, _ => ρ

/-- Gives values to variables, one each. -/
def bind (ρ : Env) : List Var → List Value → Env
  | v :: vs, x :: xs => (ρ.bind vs xs).set v x
  | _, _ => ρ

@[simp] theorem set_self (ρ : Env) (v : Var) (x : Value) : ρ.set v x v.id = x := by
  simp [set]

theorem set_of_ne {ρ : Env} {v : Var} {x : Value} {i : Nat} (h : i ≠ v.id) :
    ρ.set v x i = ρ i := by
  simp [set, h]

theorem assign_of_ne {ρ : Env} {r : Option Var} {x : Value} {i : Nat}
    (h : ∀ v, r = some v → i ≠ v.id) : ρ.assign r x i = ρ i := by
  cases r with
  | none => rfl
  | some v => exact set_of_ne (h v rfl)

theorem bind_of_getElem? {ρ : Env} {vs : List Var} {xs : List Value} {k : Nat} {v : Var}
    {x : Value} (h : (vs.map (·.id)).Nodup) (hv : vs[k]? = some v) (hx : xs[k]? = some x) :
    ρ.bind vs xs v.id = x := by
  induction vs generalizing xs k with
  | nil => cases hv
  | cons w vs ih =>
    cases xs with
    | nil => cases hx
    | cons y xs =>
      cases k with
      | zero =>
        cases hv
        cases hx
        exact set_self _ v x
      | succ k =>
        have hnot := (List.nodup_cons.mp h).1
        have hne : v.id ≠ w.id := fun heq =>
          hnot (List.mem_map.mpr ⟨v, List.mem_of_getElem? hv, heq⟩)
        rw [bind, set_of_ne hne]
        exact ih (List.nodup_cons.mp h).2 hv hx

end Env

def Arg.eval (ρ : Env) : Arg → Value
  | var v => ρ v.id
  | const c => c

@[simp] theorem Arg.eval_var (ρ : Env) (v : Var) : (Arg.var v).eval ρ = ρ v.id := rfl

theorem Arg.eval_assign_of_ne {ρ : Env} {a : Arg} {r : Option Var} {x : Value}
    (h : ∀ w, a = .var w → ∀ v, r = some v → w.id ≠ v.id) : a.eval (ρ.assign r x) = a.eval ρ := by
  cases a with
  | var w => exact Env.assign_of_ne (h w rfl)
  | const c => rfl

@[simp] theorem Arg.eval_const (ρ : Env) (c : Value) : (Arg.const c).eval ρ = c := rfl

/-- Operations that decide whether the execution goes on, and give no value. -/
def OpCode.isCheck : OpCode → Bool
  | guardTrue | guardFalse | guardValue | guardNonnull | guardIsnull | guardNotInvalidated
  | quasiimmutField => true
  | _ => false

/-- Where an execution stops: the operations that end a trace, and labels. -/
def OpCode.isStop (op : OpCode) : Bool := op.isFinal || op = .label

def Operation.defines? (op : Operation) : Option Var :=
  if op.opcode.isCheck then none else op.result

/-- What a reference execution leaves open; `σ` is the state that operations act on. -/
structure Machine (σ : Type) where
  /-- No quasi-immutable field is written before the run is over. -/
  valid : Bool
  /-- Integer operations where arithmetic gives no value, as in a shift by too large a count. -/
  arith : OpCode → List Value → Value
  /-- The guards that their arguments do not decide: none where the guard fails. -/
  guard : OpCode → List Value → σ → Option Value
  perform : OpCode → List Value → Option Descr → σ → Value × σ

namespace Machine

variable {σ : Type}

def passes (M : Machine σ) (op : OpCode) (vals : List Value) (st : σ) : Bool :=
  match op with
  | .guardNotInvalidated | .quasiimmutField => M.valid
  | op => (guardHolds op vals).getD (M.guard op vals st).isSome

def fold (M : Machine σ) (op : OpCode) (vals : List Value) : Value :=
  match (vals.mapM Value.int?).bind (foldInts op) with
  | some n => .int n
  | none => M.arith op vals

/-- The value and the next state that an operation gives on its arguments: none at a failure. -/
def compute (M : Machine σ) (memo : PureMemo) (op : OpCode) (descr : Option Descr)
    (vals : List Value) (st : σ) : Option (Value × σ) :=
  if op.isCheck then if M.passes op vals st then some (.void, st) else none
  else if op.isGuard then (M.guard op vals st).map (·, st)
  else if op.isFoldable then some (M.fold op vals, st)
  else if op = .sameAs then some (vals.headD .void, st)
  else if op = .callPure then
    match memo.get? (.ofValues vals) with
    | some v => some (v, st)
    | none => some (M.perform op vals descr st)
  else some (M.perform op vals descr st)

theorem compute_of_isGuard (M : Machine σ) (memo : PureMemo) {op : OpCode} (h : op.isGuard = true)
    (descr descr' : Option Descr) (vals : List Value) (st : σ) :
    M.compute memo op descr vals st = M.compute memo op descr' vals st := by
  unfold compute
  rw [if_pos h, if_pos h]

theorem compute_of_guardsFields (M : Machine σ) (memo : PureMemo) {op : OpCode}
    (h : op = .quasiimmutField ∨ op = .guardNotInvalidated) (descr : Option Descr)
    (vals : List Value) (st : σ) :
    M.compute memo op descr vals st = if M.valid then some (.void, st) else none := by
  rcases h with rfl | rfl <;> rfl

def step (M : Machine σ) (memo : PureMemo) (op : Operation) (ρ : Env) (st : σ) :
    Option (Env × σ) :=
  (M.compute memo op.opcode op.descr (op.args.map (·.eval ρ)) st).map fun r =>
    (ρ.assign op.defines? r.1, r.2)

end Machine

def Operation.leavesForGood (op : Operation) : Bool :=
  match op.descr with
  | some (.final _) => op.isGuard
  | _ => false

/--
The slots that a guard hands over where it fails; one that leaves for good hands nothing over.
-/
def Operation.exit (op : Operation) : List (Option Arg) :=
  if op.leavesForGood then [] else op.failSlots.map (·.map .var)

/-- An operation of a trace, recorded or compiled. -/
structure Site where
  op : Operation
  /-- The index of the recorded operation that it stands for. -/
  origin : Nat
  exit : List (Option Arg)
  deriving DecidableEq, Repr

/-- Recorded operations stand for themselves; the first has the index `i`. -/
def sites (i : Nat) : List Operation → List Site
  | [] => []
  | op :: ops => ⟨op, i, op.exit⟩ :: sites (i + 1) ops

theorem map_op_sites (i : Nat) (ops : List Operation) : (sites i ops).map (·.op) = ops := by
  induction ops generalizing i with
  | nil => rfl
  | cons op ops ih => rw [sites, List.map_cons, ih]

/-- How the execution of a list of operations ends. -/
inductive Ending (σ : Type) where
  | stops (op : OpCode) (descr : Option Descr) (vals : List Value) (st : σ)
  | ends (st : σ)
  /-- At a guard that stands for the recorded one at `origin`, with the values of its slots. -/
  | fails (origin : Nat) (exit : List (Option Value)) (st : σ)
  deriving DecidableEq, Repr

namespace Machine

variable {σ : Type}

def exitValues (ρ : Env) (exit : List (Option Arg)) : List (Option Value) :=
  exit.map (·.map (·.eval ρ))

/-- The operations one by one. -/
def run (M : Machine σ) (memo : PureMemo) : List Site → Env → σ → Ending σ
  | [], _, st => .ends st
  | s :: rest, ρ, st =>
    if s.op.opcode.isStop then
      .stops s.op.opcode s.op.descr (s.op.args.map (·.eval ρ)) st
    else match M.step memo s.op ρ st with
      | none => .fails s.origin (exitValues ρ s.exit) st
      | some (ρ', st') => M.run memo rest ρ' st'

/-- Where the operations come to if none of them stops the execution or fails. -/
def through (M : Machine σ) (memo : PureMemo) : List Operation → Env → σ → Option (Env × σ)
  | [], ρ, st => some (ρ, st)
  | op :: rest, ρ, st =>
    if op.opcode.isStop then none
    else (M.step memo op ρ st).bind fun r => M.through memo rest r.1 r.2

variable (M : Machine σ) (memo : PureMemo) {e : Site} {rest : List Site} {ρ : Env} {st : σ}

theorem through_append (ops ops' : List Operation) (ρ : Env) (st : σ) :
    M.through memo (ops ++ ops') ρ st =
      (M.through memo ops ρ st).bind fun r => M.through memo ops' r.1 r.2 := by
  induction ops generalizing ρ st with
  | nil => rfl
  | cons op ops ih =>
    simp only [List.cons_append, through]
    split
    · rfl
    · simp only [ih, Option.bind_assoc]

/-- An execution that gets through some operations goes on with what comes behind them. -/
theorem run_append_of_through {pre : List Site} {ρ' : Env} {st' : σ}
    (h : M.through memo (pre.map (·.op)) ρ st = some (ρ', st')) (k : List Site) :
    M.run memo (pre ++ k) ρ st = M.run memo k ρ' st' := by
  induction pre generalizing ρ st with
  | nil =>
    cases h
    rfl
  | cons e pre ih =>
    simp only [List.map_cons, through] at h
    split at h
    · cases h
    · rename_i hstop
      obtain ⟨r, hstep, hrest⟩ := Option.bind_eq_some_iff.mp h
      rw [List.cons_append, run, if_neg hstop, hstep]
      exact ih hrest

theorem run_cons_of_isStop (h : e.op.opcode.isStop = true) :
    M.run memo (e :: rest) ρ st =
      .stops e.op.opcode e.op.descr (e.op.args.map (·.eval ρ)) st := by
  rw [run, if_pos h]

theorem run_cons_of_compute_none (h : e.op.opcode.isStop = false)
    (hnone : M.compute memo e.op.opcode e.op.descr (e.op.args.map (·.eval ρ)) st = none) :
    M.run memo (e :: rest) ρ st = .fails e.origin (exitValues ρ e.exit) st := by
  rw [run, if_neg (by rw [h]; exact Bool.false_ne_true), step, hnone]
  rfl

theorem run_cons_of_compute_some (h : e.op.opcode.isStop = false) {x : Value} {st' : σ}
    (hsome : M.compute memo e.op.opcode e.op.descr (e.op.args.map (·.eval ρ)) st =
      some (x, st')) :
    M.run memo (e :: rest) ρ st = M.run memo rest (ρ.assign e.op.defines? x) st' := by
  rw [run, if_neg (by rw [h]; exact Bool.false_ne_true), step, hsome]
  rfl

theorem through_singleton {op : Operation} (h : op.opcode.isStop = false) {x : Value} {st' : σ}
    (hsome : M.compute memo op.opcode op.descr (op.args.map (·.eval ρ)) st = some (x, st')) :
    M.through memo [op] ρ st = some (ρ.assign op.defines? x, st') := by
  rw [through, if_neg (by rw [h]; exact Bool.false_ne_true), step, hsome]
  rfl

end Machine

end HotLoop
