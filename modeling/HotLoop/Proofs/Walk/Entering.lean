import HotLoop.Proofs.Kinds.Walk
import HotLoop.Proofs.Walk.Unrolled

/-!
# Entering an unrolled loop

The preamble of an unrolled loop ends with a value for each input of the loop: constants, results,
inputs at other places, the same variable more than once. The header turns them into distinct
variables of the same kinds, and the copies in front of it give every variable its value. In the
loop behind the header every input is replaced by exactly the variable that the header has for it.
-/

namespace HotLoop

namespace Env

theorem bind_map_of_mem (ρ ρ' : Env) {vs : List Var} {v : Var} (hv : v ∈ vs) :
    ρ.bind vs (vs.map fun w => ρ' w.id) v.id = ρ' v.id := by
  induction vs with
  | nil => cases hv
  | cons w vs ih =>
    rw [List.map_cons, bind]
    by_cases hid : v.id = w.id
    · rw [hid, set_self]
    · rw [set_of_ne hid]
      exact ih ((List.mem_cons.mp hv).resolve_left fun heq => hid (congrArg Var.id heq))

end Env

/--
The loop with the inputs `inputs`, left by its preamble with the values `endArgs`, is entered
through the variables `vars`, once the copies `copies` have been made.
-/
structure TakesOver (inputs : List Var) (endArgs : List Arg) (vars : List Var)
    (copies : List Operation) : Prop where
  nodup : vars.Nodup
  kinds : vars.map (·.kind) = endArgs.map Arg.kind
  arrives (σ : Type) (M : Machine σ) (memo : PureMemo) (ρ : Env) (st : σ) (descr : Descr)
    (rest : List Site) :
    M.run memo (copies.map Site.ofOp ++ Site.ofOp (.label vars descr) :: rest) ρ st =
      .stops .label (some descr) (endArgs.map (·.eval ρ)) st
  binds (ρ base : Env) (k : Nat) (v : Var) (a : Arg) (hv : vars[k]? = some v)
    (ha : endArgs[k]? = some a) : base.bind vars (endArgs.map (·.eval ρ)) v.id = a.eval ρ
  grounded : (headerTable inputs vars).Grounded
  replaces (k : Nat) (u v : Var) (hu : inputs[k]? = some u) (hv : vars[k]? = some v) :
    (headerTable inputs vars).resolve (.var u) = .var v

/--
A header takes over if its values have the number of an input at the place of the input only where
they are the input.
-/
theorem TakesOver.of_extendsHeader {inputs vars : List Var} {endArgs : List Arg}
    {copies : List Operation} {next next' : Nat}
    (h : ExtendsHeader inputs [] 0 next endArgs vars copies next')
    (hnodup : (inputs.map (·.id)).Nodup) (harity : inputs.length = endArgs.length)
    (hinputs : ∀ v ∈ inputs, v.id < next) (hend : ∀ v, .var v ∈ endArgs → v.id < next)
    (hown : ∀ (k : Nat) (u w : Var), inputs[k]? = some u → endArgs[k]? = some (.var w) →
      u.id = w.id → u = w) : TakesOver inputs endArgs vars copies := by
  have htakes := HeaderTakes.of_extendsHeader hinputs h (Nat.le_refl _) harity hown
  refine ⟨?_, h.map_kind, fun σ M memo ρ st descr rest => ?_, fun ρ base k v a hv ha => ?_,
    htakes.grounded, fun k u v hu hv => htakes.resolve_getElem? hnodup hu hv⟩
  · exact h.nodup_vars hend (by simp) List.nodup_nil
  · obtain ⟨ρ', hrun, hvals, -⟩ := h.run_copies ρ hend
    have hstop : (Site.ofOp (.label vars descr)).op.opcode.isStop = true := rfl
    have hlabel : (Site.ofOp (.label vars descr)).op.args.map (·.eval ρ') =
        endArgs.map (·.eval ρ) := by
      rw [← hvals]
      exact List.map_map
    rw [show copies.map Site.ofOp = copies.map (⟨·, 0, []⟩) from rfl, hrun,
      M.run_cons_of_isStop memo hstop, hlabel]
    rfl
  · obtain ⟨ρ', -, hvals, -⟩ := h.run_copies ρ hend
    have hvalue : ρ' v.id = a.eval ρ := by
      have hat := congrArg (·[k]?) hvals
      simpa [List.getElem?_map, hv, ha] using hat
    rw [← hvals, Env.bind_map_of_mem base ρ' (List.mem_of_getElem? hv), hvalue]

namespace Pass

variable {p p' : Pass} {inputs : List Var}

private theorem fresh_eq_error {k : Kind} {e : Rejection}
    (h : runFrom (fresh k) p = (.error e, p')) :
    e = .fault .valuesExhausted ∧ ValueIds.limit ≤ p.shared.values.next := by
  rw [fresh, runFrom_bind, runFrom_get] at h
  dsimp only at h
  split at h
  · rw [runFrom_bind, runFrom_set] at h
    cases h
  · rename_i e' hfresh
    unfold ValueIds.fresh at hfresh
    split at hfresh
    · cases hfresh
    · cases hfresh
      cases h
      exact ⟨rfl, by omega⟩

private theorem next_le_of_extendHeader {header header' : List Var × List Operation}
    {a : Arg × Nat} (h : runFrom (extendHeader inputs header a) p = (.ok header', p')) :
    p'.shared.values.next ≤ p.shared.values.next + 1 := by
  unfold extendHeader at h
  split at h
  · cases h
    exact Nat.le_succ _
  · simp only [runFrom_bind_eq_ok, runFrom_pure, Prod.mk.injEq] at h
    obtain ⟨v, q, hfresh, -, rfl⟩ := h
    rw [(fresh_eq_ok hfresh).2]

private theorem foldlM_extendHeader_eq_error {l : List (Arg × Nat)}
    {header : List Var × List Operation} {e : Rejection}
    (h : runFrom (l.foldlM (extendHeader inputs) header) p = (.error e, p')) :
    e = .fault .valuesExhausted ∧ ValueIds.limit < p.shared.values.next + l.length := by
  induction l generalizing p header with
  | nil => cases h
  | cons a l ih =>
    rw [List.length_cons]
    rw [List.foldlM_cons, runFrom_bind_eq_error] at h
    rcases h with h | ⟨header', q, hstep, h⟩
    · unfold extendHeader at h
      split at h
      · cases h
      · rw [runFrom_bind_eq_error] at h
        rcases h with h | ⟨_, _, -, h⟩
        · obtain ⟨rfl, hle⟩ := fresh_eq_error h
          exact ⟨rfl, by omega⟩
        · cases h
    · obtain ⟨rfl, hlt⟩ := ih h
      have := next_le_of_extendHeader hstep
      exact ⟨rfl, by omega⟩

/--
The header of a loop takes over whatever the preamble ends with: permuted and repeated inputs,
constants and results. It is built as long as there are numbers for the copies, and it is the header
of the second walk, which starts with the inputs replaced. The inputs have different numbers, and a
value with the number of the input at its own place is that input.
-/
theorem header_takesOver (inputs : List Var) (endArgs : List Arg) (shared : OptState)
    (hnodup : (inputs.map (·.id)).Nodup) (harity : inputs.length = endArgs.length)
    (hinputs : ∀ v ∈ inputs, v.id < shared.values.next)
    (hend : ∀ v, .var v ∈ endArgs → v.id < shared.values.next)
    (hown : ∀ (k : Nat) (u w : Var), inputs[k]? = some u → endArgs[k]? = some (.var w) →
      u.id = w.id → u = w) :
    match runFrom (header inputs endArgs) (.ofShared shared) with
    | (.ok (vars, copies), p) =>
      TakesOver inputs endArgs vars copies ∧
        ∀ (s : PassSettings) (closing : Operation) (ops : List Operation) (state : ExportedState)
          (result : Optimized) (p' : Pass), state.endArgs = endArgs →
          runFrom (peeled s inputs closing ops state) (.ofShared shared) = (.ok result, p') →
          ∃ entry last r, result.header = some ⟨vars, entry, copies⟩ ∧
            runFrom (run { s with renames := true } ops)
              { p with forwarding := headerTable inputs vars } = (.ok last, r) ∧
            result.operations =
              r.out ++ [{ r.forwarding.apply closing with descr := some (.target entry) }]
    | (.error e, _) =>
      e = .fault .valuesExhausted ∧ ValueIds.limit < shared.values.next + endArgs.length := by
  cases hheader : runFrom (header inputs endArgs) (.ofShared shared) with
  | mk answer p =>
    cases answer with
    | error e =>
      have hstop := foldlM_extendHeader_eq_error hheader
      rwa [List.length_zipIdx] at hstop
    | ok header =>
      obtain ⟨vars, copies⟩ := header
      obtain ⟨vs, cs, rfl, rfl, hbuilt, values, rfl⟩ := extendsHeader_of_foldlM hheader
      refine ⟨.of_extendsHeader hbuilt hnodup harity hinputs hend hown, ?_⟩
      rintro s closing ops state result p' rfl hpeeled
      obtain ⟨header, q, r, hinto⟩ := peeled_eq_ok hpeeled
      obtain ⟨q₀, hentered, rfl⟩ := hinto.entered
      rw [hheader] at hentered
      obtain ⟨last, hrun⟩ := hinto.run
      obtain ⟨vars', entry, copies'⟩ := header
      cases hentered
      exact ⟨entry, last, r, hinto.isHeader, hrun, hinto.operations⟩

/--
Two inputs change places, a third gives way to a constant, and a result is taken over twice: the
header takes the result once as it is, and copies everything else.
-/
theorem header_takesOver_swapping :
    let x : Var := ⟨0, .int⟩
    let y : Var := ⟨1, .int⟩
    let z : Var := ⟨2, .ref⟩
    let v : Var := ⟨3, .int⟩
    let w : Var := ⟨4, .int⟩
    let u : Var := ⟨5, .int⟩
    let inputs := [x, y, z, v, w]
    let endArgs : List Arg := [.var y, .var x, .const .null, .var u, .var u]
    let shared : OptState := { values := ⟨6⟩, counter := .ofBits 4 }
    ((inputs.map (·.id)).Nodup ∧ inputs.length = endArgs.length ∧
      (∀ v ∈ inputs, v.id < shared.values.next) ∧
      (∀ v, .var v ∈ endArgs → v.id < shared.values.next) ∧
      ∀ (k : Nat) (u w : Var), inputs[k]? = some u → endArgs[k]? = some (.var w) →
        u.id = w.id → u = w) ∧
    TakesOver inputs endArgs [⟨6, .int⟩, ⟨7, .int⟩, ⟨8, .ref⟩, u, ⟨9, .int⟩]
      [{ opcode := .sameAs, args := [.var y], result := some ⟨6, .int⟩ },
        { opcode := .sameAs, args := [.var x], result := some ⟨7, .int⟩ },
        { opcode := .sameAs, args := [.const .null], result := some ⟨8, .ref⟩ },
        { opcode := .sameAs, args := [.var u], result := some ⟨9, .int⟩ }] := by
  intro x y z v w u inputs endArgs shared
  have hnodup : (inputs.map (·.id)).Nodup := by decide
  have hinputs : ∀ v ∈ inputs, v.id < shared.values.next := by decide
  have hend : ∀ v, .var v ∈ endArgs → v.id < shared.values.next := by
    simp [endArgs, shared, x, y, u]
  have hown : ∀ (k : Nat) (u w : Var), inputs[k]? = some u → endArgs[k]? = some (.var w) →
      u.id = w.id → u = w := by
    intro k a b ha hb hid
    match k with
    | 0 | 1 | 2 | 3 | 4 =>
      cases ha
      cases hb
      all_goals exact absurd hid (by decide)
    | k + 5 => cases ha
  exact ⟨⟨hnodup, rfl, hinputs, hend, hown⟩,
    (header_takesOver inputs endArgs shared hnodup rfl hinputs hend hown).1⟩

/--
What the header needs. Where a number names two inputs, the first of them is replaced by the
variable of the second. A value with the number of the input at its own place, and of another kind,
is taken as it is, and the table that replaces the input by it has a cycle. And there has to be a
number for every copy.
-/
theorem header_misses_sharedNumber :
    let x : Var := ⟨0, .int⟩
    let y : Var := ⟨0, .ref⟩
    let shared (next : Nat) : OptState := { values := ⟨next⟩, counter := .ofBits 4 }
    ([x, y].Nodup ∧
      (runFrom (header [x, y] [.var x, .var y]) (.ofShared (shared 2))).1.toOption.map (·.1) =
        some [⟨2, .int⟩, ⟨3, .ref⟩] ∧
      (headerTable [x, y] [⟨2, .int⟩, ⟨3, .ref⟩]).resolve (.var x) = .var ⟨3, .ref⟩) ∧
    ((runFrom (header [x] [.var y]) (.ofShared (shared 2))).1.toOption.map (·.1) = some [y] ∧
      ¬ (headerTable [x] [y]).Grounded) ∧
    (runFrom (header [x] [.int 7]) (.ofShared (shared ValueIds.limit))).1 =
      .error (.fault .valuesExhausted) := by
  intro x y shared
  refine ⟨⟨by decide, by decide, by decide⟩, ⟨by decide, fun hgrounded => ?_⟩, rfl⟩
  have hcycle : (headerTable [x] [y]).resolve (.var x) = .var y := by decide
  have hend := hgrounded.isEnd_resolve (.var x)
  rw [hcycle] at hend
  cases Forwarding.isEnd_var.mp hend

end Pass

end HotLoop
