import HotLoop.Proofs.Consistency.Flow

/-!
# What an execution reaches

A processor leaves open what every operation does. An execution passes labels by and goes on until
an operation leaves the trace or ends it, and its trail is what it has reached, with the values that
each operation reads and those that it would hand over. Renamed operations have the same trail where
the new names have the values of the old ones.
-/

namespace HotLoop

structure Reached where
  op : OpCode
  descr : Option Descr := none
  args : List Value
  exit : Option (List (Option Value)) := none
  deriving DecidableEq, Repr

def Operation.reached (op : Operation) (ρ : Env) : Reached where
  op := op.opcode
  descr := op.descr
  args := op.args.map (·.eval ρ)
  exit := op.failArgs.map (·.map (·.map fun v => ρ v.id))

/--
What operations do: the value and the next state that an operation gives, or none where the
execution leaves the trace there.
-/
abbrev Processor (σ : Type) := Reached → σ → Option (Value × σ)

namespace Processor

variable {σ : Type} {P : Processor σ} {st : σ}

/-- What an execution reaches, and the state that it leaves. -/
def trail (P : Processor σ) : List Operation → Env → σ → List Reached × σ
  | [], _, st => ([], st)
  | op :: ops, ρ, st =>
    if op.isFinal then ([op.reached ρ], st)
    else if op.opcode = .label then
      (op.reached ρ :: (P.trail ops ρ st).1, (P.trail ops ρ st).2)
    else match P (op.reached ρ) st with
      | none => ([op.reached ρ], st)
      | some (x, st') =>
        let rest := P.trail ops (ρ.assign op.result x) st'
        (op.reached ρ :: rest.1, rest.2)

/--
The operations neither leave the trace nor change the state. They reach the given, and behind them
the variables have the values of the second environment.
-/
inductive Reads (P : Processor σ) (st : σ) : List Operation → Env → List Reached → Env → Prop where
  | nil (ρ : Env) : Reads P st [] ρ [] ρ
  | cons {op : Operation} {ops : List Operation} {ρ ρ' : Env} {x : Value} {reached : List Reached}
      (hfinal : op.isFinal = false) (hlabel : op.opcode ≠ .label)
      (hop : P (op.reached ρ) st = some (x, st))
      (rest : Reads P st ops (ρ.assign op.result x) reached ρ') :
      Reads P st (op :: ops) ρ (op.reached ρ :: reached) ρ'

namespace Reads

variable {op : Operation} {ops ops' : List Operation} {ρ ρ' ρ'' : Env} {x : Value}
  {reached reached' : List Reached}

theorem append (h : Reads P st ops ρ reached ρ') (h' : Reads P st ops' ρ' reached' ρ'') :
    Reads P st (ops ++ ops') ρ (reached ++ reached') ρ'' := by
  induction h with
  | nil => exact h'
  | cons hfinal hlabel hop _ ih => exact .cons hfinal hlabel hop (ih h')

theorem single (hfinal : op.isFinal = false) (hlabel : op.opcode ≠ .label)
    (hop : P (op.reached ρ) st = some (x, st)) :
    Reads P st [op] ρ [op.reached ρ] (ρ.assign op.result x) :=
  .cons hfinal hlabel hop (.nil _)

/-- An execution goes on behind operations that read. -/
theorem trail_append (h : Reads P st ops ρ reached ρ') (ops' : List Operation) :
    P.trail (ops ++ ops') ρ st =
      (reached ++ (P.trail ops' ρ' st).1, (P.trail ops' ρ' st).2) := by
  induction h with
  | nil => rfl
  | cons hfinal hlabel hop _ ih =>
    simp only [List.cons_append, trail, hfinal, hlabel, hop, ih, if_false, Bool.false_eq_true]

end Reads

section Renaming

variable {t : Forwarding} {f : Nat → Nat} {op : Operation} {ops : List Operation} {ρ ρ' : Env}

private theorem eval_resolve (h : t.Renames f) {a : Arg}
    (hmeans : ∀ v, a = .var v → ρ' (f v.id) = ρ v.id) : (t.resolve a).eval ρ' = a.eval ρ := by
  cases a with
  | const c => rw [Forwarding.resolve_const, Arg.eval_const, Arg.eval_const]
  | var v =>
    obtain ⟨w, hw, hid⟩ := h v
    rw [hw, Arg.eval_var, Arg.eval_var, hid]
    exact hmeans v rfl

private theorem id_resolveVar (h : t.Renames f) (v : Var) : (t.resolveVar v).id = f v.id := by
  obtain ⟨w, hw, hid⟩ := h v
  rw [Forwarding.resolveVar, hw]
  exact hid

/-- A renamed operation reads the same where the new names of its variables have the old values. -/
theorem reached_apply (h : t.Renames f) (hmeans : ∀ v ∈ op.uses, ρ' (f v.id) = ρ v.id) :
    (t.apply op).reached ρ' = op.reached ρ := by
  have hargs : (t.apply op).args.map (·.eval ρ') = op.args.map (·.eval ρ) := by
    rw [Forwarding.apply, List.map_map]
    refine List.map_congr_left fun a ha => eval_resolve h fun v hv => hmeans v ?_
    exact mem_uses_of_mem_args (hv ▸ ha)
  have hexit : (t.apply op).failArgs.map (·.map (·.map fun v => ρ' v.id)) =
      op.failArgs.map (·.map (·.map fun v => ρ v.id)) := by
    rw [Forwarding.apply, Option.map_map]
    cases hfail : op.failArgs with
    | none => rfl
    | some slots =>
      simp only [Option.map_some, Function.comp_apply, List.map_map, Option.some.injEq]
      refine List.map_congr_left fun slot hslot => ?_
      cases slot with
      | none => rfl
      | some v =>
        have hv : v ∈ op.uses :=
          mem_uses_of_mem_failSlots (by rw [Operation.failSlots, hfail]; exact hslot)
        simp only [Function.comp_apply, Option.map_some, id_resolveVar h, hmeans v hv]
  rw [Operation.reached, Operation.reached, hargs, hexit]
  rfl

/-- To read is the same under other names, if the variables that are read keep their numbers. -/
theorem Reads.map_apply {reached : List Reached} (h : t.Renames f)
    (hreads : Reads P st ops ρ reached ρ') (hfixed : ∀ op ∈ ops, ∀ v ∈ op.uses, f v.id = v.id) :
    Reads P st (ops.map t.apply) ρ reached ρ' := by
  induction hreads with
  | nil ρ => exact .nil ρ
  | @cons op ops ρ ρ' x reached hfinal hlabel hop _ ih =>
    have hhere : (t.apply op).reached ρ = op.reached ρ :=
      reached_apply h fun v hv => by rw [hfixed op (List.mem_cons_self ..) v hv]
    rw [List.map_cons, ← hhere]
    exact .cons hfinal hlabel (hhere ▸ hop)
      (ih fun o ho => hfixed o (List.mem_cons_of_mem _ ho))

/--
Renamed operations have the same trail: what an operation defines keeps its number, and is nobody
else's new name.
-/
theorem trail_map_apply (h : t.Renames f) (inUse : Nat → Prop)
    (huses : ∀ op ∈ ops, ∀ v ∈ op.uses, inUse v.id) (hspares : ∀ op ∈ ops, SparesResult f op)
    (hmeans : ∀ i, inUse i → ρ' (f i) = ρ i) (st : σ) :
    P.trail (ops.map t.apply) ρ' st = P.trail ops ρ st := by
  induction ops generalizing ρ ρ' st with
  | nil => rfl
  | cons op ops ih =>
    have htail := fun o ho => huses o (List.mem_cons_of_mem op ho)
    have hspares' := fun o ho => hspares o (List.mem_cons_of_mem op ho)
    have hhere : (t.apply op).reached ρ' = op.reached ρ :=
      reached_apply h fun v hv => hmeans v.id (huses op (List.mem_cons_self ..) v hv)
    have hassign (x : Value) (i : Nat) (hi : inUse i) :
        ρ'.assign op.result x (f i) = ρ.assign op.result x i := by
      cases hr : op.result with
      | none => exact hmeans i hi
      | some r =>
        have hiff := hspares op (List.mem_cons_self ..) r hr i
        by_cases heq : i = r.id
        · rw [hiff.mpr heq, heq, Env.assign, Env.assign, Env.set_self, Env.set_self]
        · rw [Env.assign, Env.assign, Env.set_of_ne heq, Env.set_of_ne fun h => heq (hiff.mp h)]
          exact hmeans i hi
    rw [List.map_cons, trail, trail, hhere]
    have hfinal : (t.apply op).isFinal = op.isFinal := rfl
    have hresult : (t.apply op).result = op.result := rfl
    rw [hfinal, hresult, Forwarding.apply_opcode, ih htail hspares' hmeans]
    split
    · rfl
    · split
      · rfl
      · cases P (op.reached ρ) st with
        | none => rfl
        | some r =>
          dsimp only
          rw [ih htail hspares' (hassign r.1)]

end Renaming

end Processor

end HotLoop
