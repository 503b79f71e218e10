import HotLoop.Proofs.Execution.Machine

/-!
# Executing code from its labels

Here an execution knows which variables have a value, and an operation that reads another one cannot
be executed. An execution starts behind the inputs, or behind a label that other code has jumped to.
It goes on from one operation to the next, and from a jump to any label with as many arguments. A
label keeps the values of its arguments and drops all others.
-/

namespace HotLoop

abbrev PartialEnv := Nat → Option Value

namespace PartialEnv

def set (ρ : PartialEnv) (v : Var) (x : Value) : PartialEnv :=
  fun i => if i = v.id then some x else ρ i

def assign (ρ : PartialEnv) : Option Var → Value → PartialEnv
  | some v, x => ρ.set v x
  | none, _ => ρ

/-- One value for each argument; no variable but those among the arguments has one. -/
def ofArgs : List Arg → List Value → PartialEnv
  | .var v :: args, x :: xs => (ofArgs args xs).set v x
  | .const _ :: args, _ :: xs => ofArgs args xs
  | _, _ => fun _ => none

/-- The variable has a value. -/
def Binds (ρ : PartialEnv) (i : Nat) : Prop := ρ i ≠ none

/-- The value of an argument. -/
def read (ρ : PartialEnv) : Arg → Option Value
  | .var v => ρ v.id
  | .const c => some c

variable {ρ : PartialEnv} {i : Nat}

theorem binds_set {v : Var} {x : Value} : (ρ.set v x).Binds i ↔ ρ.Binds i ∨ v.id = i := by
  unfold Binds set
  split
  · rename_i heq
    simp [heq]
  · rename_i hne
    simp [Ne.symm hne]

theorem binds_assign {r : Option Var} {x : Value} :
    (ρ.assign r x).Binds i ↔ ρ.Binds i ∨ ∃ v, r = some v ∧ v.id = i := by
  cases r with
  | none => simp [assign]
  | some v => simp [assign, binds_set]

/-- Values for all arguments are values for exactly the variables among them. -/
theorem binds_ofArgs {args : List Arg} {xs : List Value} (h : xs.length = args.length) :
    (ofArgs args xs).Binds i ↔ ∃ v, .var v ∈ args ∧ v.id = i := by
  induction args generalizing xs with
  | nil => simp [ofArgs, Binds]
  | cons a args ih =>
    cases xs with
    | nil => cases h
    | cons x xs =>
      have ih := ih (Nat.succ.inj h)
      cases a with
      | const c => simpa [ofArgs] using ih
      | var v =>
        rw [ofArgs, binds_set, ih]
        simp only [List.mem_cons, Arg.var.injEq]
        exact ⟨fun hmem => hmem.elim (fun ⟨w, hw, hid⟩ => ⟨w, .inr hw, hid⟩) fun hid => ⟨v, .inl rfl, hid⟩,
          fun ⟨w, hw, hid⟩ => hw.elim (fun heq => .inr (heq ▸ hid)) fun hw => .inl ⟨w, hw, hid⟩⟩

theorem length_of_mapM_read {args : List Arg} {xs : List Value}
    (h : args.mapM ρ.read = some xs) : xs.length = args.length := by
  induction args generalizing xs with
  | nil =>
    cases h
    rfl
  | cons a args ih =>
    simp only [List.mapM_cons, Option.pure_def, Option.bind_eq_bind, Option.bind_eq_some_iff,
      Option.some.injEq] at h
    obtain ⟨x, -, xs, hrest, rfl⟩ := h
    rw [List.length_cons, List.length_cons, ih hrest]

end PartialEnv

/-- Where an execution is. -/
structure RunState (σ : Type) where
  index : Nat
  values : PartialEnv
  state : σ

namespace Machine

variable {σ : Type} (M : Machine σ) (memo : PureMemo)

/-- One operation is executed; a guard that fails leaves the code. -/
inductive Moves (ops : List Operation) : RunState σ → RunState σ → Prop where
  | pass {i : Nat} {ρ : PartialEnv} {st st' : σ} {op : Operation} {xs : List Value} {x : Value}
      (hop : ops[i]? = some op) (hstop : op.opcode.isStop = false)
      (hread : op.args.mapM ρ.read = some xs)
      (hcompute : M.compute memo op.opcode op.descr xs st = some (x, st')) :
      Moves ops ⟨i, ρ, st⟩ ⟨i + 1, ρ.assign op.result x, st'⟩
  | label {i : Nat} {ρ : PartialEnv} {st : σ} {op : Operation} {xs : List Value}
      (hop : ops[i]? = some op) (hlabel : op.opcode = .label)
      (hread : op.args.mapM ρ.read = some xs) :
      Moves ops ⟨i, ρ, st⟩ ⟨i + 1, .ofArgs op.args xs, st⟩
  | jump {i j : Nat} {ρ : PartialEnv} {st : σ} {op target : Operation} {xs : List Value}
      (hop : ops[i]? = some op) (hjump : op.opcode = .jump)
      (hread : op.args.mapM ρ.read = some xs) (htarget : ops[j]? = some target)
      (hlabel : target.opcode = .label) (hlength : xs.length = target.args.length) :
      Moves ops ⟨i, ρ, st⟩ ⟨j + 1, .ofArgs target.args xs, st⟩

/--
Executions of the code come here. They start with one value for each input, and code outside may
enter at any label with one value for each of its arguments.
-/
inductive Arrives (inputs : List Var) (ops : List Operation) : RunState σ → Prop where
  | start {xs : List Value} (st : σ) (hlength : xs.length = inputs.length) :
      Arrives inputs ops ⟨0, .ofArgs (inputs.map .var) xs, st⟩
  | enter {j : Nat} {target : Operation} {xs : List Value} (st : σ)
      (htarget : ops[j]? = some target) (hlabel : target.opcode = .label)
      (hlength : xs.length = target.args.length) :
      Arrives inputs ops ⟨j + 1, .ofArgs target.args xs, st⟩
  | move {m m' : RunState σ} (h : Arrives inputs ops m) (hmoves : M.Moves memo ops m m') :
      Arrives inputs ops m'

end Machine

end HotLoop
