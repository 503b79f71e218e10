import HotLoop.Proofs.Walk.Unrolled

/-!
# Loops that are traced again

A bridge that finds no entry point hands its end values on, and the loop that it leads to is walked
with these for its header. The operations of the loop have been recorded behind the bridge: none of
them redefines a variable that the bridge knows, and so the header keeps the inputs as long as these
are different variables. From the header on the code then does turn by turn what the loop does round
by round.
-/

namespace HotLoop

variable {s : PassSettings} {p p' : Pass} {ops : List Operation} {scope inputs : List Var}

section Staying

/-- Replacements do not lead out of a scope. -/
def Forwarding.StaysIn (t : Forwarding) (scope : List Var) : Prop :=
  ∀ v w, t.get? v = some (.var w) → w ∈ scope

namespace Forwarding.StaysIn

variable {t : Forwarding}

theorem empty (scope : List Var) : Forwarding.empty.StaysIn scope := by
  intro v w hget
  cases hget

theorem forward (h : t.StaysIn scope) {r : Var} {a : Arg} (ha : ∀ w, a = .var w → w ∈ scope) :
    (t.forward r a).StaysIn scope := by
  intro v w hget
  rw [get?_forward] at hget
  split at hget
  · exact ha w (Option.some.inj hget)
  · exact h v w hget

theorem resolve (h : t.StaysIn scope) {a : Arg} (ha : ∀ v, a = .var v → v ∈ scope) {w : Var}
    (hw : t.resolve a = .var w) : w ∈ scope := by
  obtain ⟨v, rfl⟩ := exists_var_of_resolve hw
  exact resolve_of_values (P := (· ∈ scope)) h (ha v rfl) hw

end Forwarding.StaysIn

theorem Pass.Stepped.staysIn {op : Operation} (h : Pass.Stepped s p p' op)
    (hplain : s.renames = false) (ht : p.forwarding.StaysIn scope)
    (hop : ∀ v, .var v ∈ op.args → v ∈ scope) : p'.forwarding.StaysIn scope := by
  cases h with
  | drop _ heq =>
    obtain ⟨deps, rfl⟩ := heq
    exact ht
  | replace r a hfate heq =>
    obtain ⟨deps, rfl⟩ := heq
    refine ht.forward ?_
    rintro w rfl
    obtain ⟨-, ⟨c, -, hc⟩ | ⟨-, hhead⟩⟩ := replace_cases hfate
    · cases hc
    · obtain ⟨a, ha, haw⟩ := List.mem_map.mp (List.mem_of_head? hhead)
      refine ht.resolve ?_ haw
      rintro v rfl
      exact hop v ha
  | keep op' e t _ hkeeps =>
    obtain ⟨deps, hkeeps⟩ := hkeeps
    rcases hkeeps.renamed with ⟨hrenames, -⟩ | ⟨-, -, rfl, -⟩
    · rw [hplain] at hrenames
      cases hrenames
    · rw [hkeeps.forwarding]
      rcases Pass.learn_cases p.forwarding op' with hlearn | ⟨v, c, -, -, hlearn⟩
      · rw [hlearn]
        exact ht
      · rw [hlearn]
        exact ht.forward fun w hw => by cases hw

theorem staysIn_of_run {last : Option Operation} (hplain : s.renames = false)
    (hrun : runFrom (Pass.run s ops) p = (.ok last, p')) (hops : ∀ op ∈ ops, op.isFinal = false)
    (ht : p.forwarding.StaysIn scope) (hscope : ∀ op ∈ ops, ∀ v, .var v ∈ op.args → v ∈ scope) :
    p'.forwarding.StaysIn scope := by
  induction ops generalizing p with
  | nil =>
    cases hrun
    exact ht
  | cons op ops ih =>
    obtain ⟨hop, hops⟩ := List.forall_mem_cons.mp hops
    obtain ⟨hargs, hscope⟩ := List.forall_mem_cons.mp hscope
    obtain ⟨q, hstepped, hrest⟩ := Pass.run_cons_eq_ok hop hrun
    exact ih hrest hops (hstepped.staysIn hplain ht hargs) hscope

/--
After a walk over operations that use a scope, arguments from there resolve to arguments there.
-/
theorem mem_of_resolve_of_run {last : Option Operation} {shared : OptState} {args : List Arg}
    (hplain : s.renames = false) (hrun : runFrom (Pass.run s ops) (.ofShared shared) = (.ok last, p))
    (hops : ∀ op ∈ ops, op.isFinal = false) (hscope : ∀ op ∈ ops, ∀ v, .var v ∈ op.args → v ∈ scope)
    (hargs : ∀ v, .var v ∈ args → v ∈ scope) :
    ∀ w, .var w ∈ args.map p.forwarding.resolve → w ∈ scope := by
  intro w hw
  obtain ⟨a, ha, haw⟩ := List.mem_map.mp hw
  refine (staysIn_of_run hplain hrun hops (.empty scope) hscope).resolve ?_ haw
  rintro v rfl
  exact hargs v ha

end Staying

/--
A loop that has been recorded behind a bridge whose variables are `scope`, with some of these for
its inputs.
-/
structure RecordedBehind (scope inputs : List Var) (ops : List Operation) (args : List Arg)
    (next : Nat) : Prop extends WellFormedLoop inputs ops args next where
  nodup_scope : (scope.map (·.id)).Nodup
  scope_lt : ∀ v ∈ scope, v.id < next
  inputs_subset : inputs ⊆ scope
  apart : ∀ op ∈ ops, ∀ r, op.result = some r → ∀ v ∈ scope, v.id ≠ r.id

variable {jumpArgs : List Arg} {next : Nat}

private theorem RecordedBehind.header (h : RecordedBehind scope inputs ops jumpArgs next)
    {endArgs : List Arg} {vars : List Var} {copies : List Operation} {next' : Nat}
    (hend : ∀ w, .var w ∈ endArgs → w ∈ scope) (harity : inputs.length = endArgs.length)
    (hbuilt : ExtendsHeader inputs [] 0 next endArgs vars copies next') :
    HeaderFits inputs vars ∧ (∀ v ∈ vars, v.id < next') ∧
      ∀ op ∈ ops, ∀ r, op.result = some r → ∀ v ∈ vars, v.id ≠ r.id := by
  have hid : ∀ u ∈ scope, ∀ w ∈ scope, u.id = w.id → u = w := fun _ hu _ hw =>
    List.inj_on_of_nodup_map h.nodup_scope hu hw
  have hcases : ∀ v ∈ vars, v ∈ scope ∨ next ≤ v.id ∧ v.id < next' := by
    intro v hv
    obtain ⟨k, hk⟩ := List.mem_iff_getElem?.mp hv
    exact (hbuilt.cases_of_getElem? hk).imp (fun hl => hend v (List.mem_of_getElem? hl.1)) id
  have hfits : HeaderFits inputs vars :=
    .of_extendsHeader h.nodup h.inputs_subset h.scope_lt hid hbuilt (Nat.le_refl _) harity hend
  refine ⟨hfits, fun v hv => ?_, fun op hop r hr v hv => ?_⟩
  · rcases hcases v hv with hscope | hfresh
    · exact Nat.lt_of_lt_of_le (h.scope_lt v hscope) hbuilt.next_le
    · exact hfresh.2
  · rcases hcases v hv with hscope | hfresh
    · exact h.apart op hop r hr v hscope
    · have := h.results_lt r (List.mem_filterMap.mpr ⟨op, hop, hr⟩)
      omega

/--
From its header on a loop that has been traced again does turn by turn what it does round by round,
whatever values the header is entered with.
-/
theorem retraced_turns {driver : Nat} {opts : OptSet} {memo : PureMemo} {shared : OptState}
    {descr : Descr} {state : ExportedState} {result : Optimized} {header : LoopHeader}
    (h : RecordedBehind scope inputs ops jumpArgs shared.values.next)
    (hend : ∀ w, .var w ∈ state.endArgs → w ∈ scope)
    (hpeeled : runFrom
      (Pass.peeled { driver, opts, memo } inputs (.jump jumpArgs descr) ops state)
      (.ofShared shared) = (.ok result, p))
    (hheader : result.header = some header) :
    ∃ placed : List Site, placed.map (·.op) = result.operations ∧ CompiledFrom ops placed ∧
      jumpArgs.length = inputs.length ∧ header.vars.length = inputs.length ∧
      ∀ (σ : Type) (M : Machine σ) (base : Env) (jump : Site), jump.op.opcode = .jump →
        jump.op.args = jumpArgs → ∀ (n : Nat) (vals : List Value) (st : σ),
          vals.length = inputs.length →
            M.turns memo base (Site.ofOp header.label :: placed) n (some (.target header.entry))
                vals st =
              M.rounds memo base inputs (sites 0 ops ++ [jump]) n vals st := by
  obtain ⟨header', q, r, hinto⟩ := peeled_eq_ok hpeeled
  cases hheader.symm.trans hinto.isHeader
  obtain ⟨last, hrun⟩ := hinto.run
  obtain ⟨hfits, hvars, hapart⟩ := h.header hend hinto.arity hinto.built
  have hstart : q.forwarding = headerTable inputs header.vars := hinto.start.1
  have hnext : shared.values.next ≤ q.shared.values.next := hinto.built.next_le
  have ht : Tracks { driver, opts, memo, renames := true } q (.ofHeader inputs header.vars) ops
      jumpArgs := by
    refine hfits.tracks rfl hstart h.inScope (fun e he => ?_) (fun op hop _ => hapart op hop)
      (fun v hv => ?_) hvars (fun op hop r hr => ?_)
    · have hmem := (List.of_mem_zip he).2
      exact keepsValue_of_forall_ne fun op hop v hv hid => hapart op hop v hv e.2 hmem hid.symm
    · exact Nat.lt_of_lt_of_le (h.inputs_lt v hv) hnext
    · exact Nat.lt_of_lt_of_le (h.results_lt r (List.mem_filterMap.mpr ⟨op, hop, hr⟩)) hnext
  obtain ⟨body, hout, hemits, hleg⟩ := sameLeg_of_run hrun h.straight ht hinto.start.2.2 fun v hv =>
    h.args_inScope v (Arg.mem_filterMap_var?_iff.mpr hv)
  let closing := Operation.jump jumpArgs descr
  let jump' := Site.ofOp { r.forwarding.apply closing with descr := some (.target header.entry) }
  have hlen : jumpArgs.length = inputs.length := hinto.jumpArity.trans hfits.length
  refine ⟨body ++ [jump'], ?_, ?_, hlen, hfits.length, ?_⟩
  · rw [hinto.operations, hout, hinto.start.2.1]
    simp [jump', closing, Site.ofOp, Pass.ofShared]
  · exact (CompiledFrom.ofEmitted hemits).append (.cons_ofOp rfl .nil)
  · intro σ M base jump hjump hargs n vals st hvals
    refine turns_eq_rounds_of_length (fun vals hvals st => ?_) n hvals st
    have hfrom := fromLabel_cons (Site.ofOp header.label) (body ++ [jump']) rfl
    change fromLabel (some (.target header.entry)) _ = _ at hfrom
    have hlabel : (Site.ofOp header.label).op.argVars = header.vars :=
      Operation.argVars_label header.vars _
    rw [hfrom, Machine.leg, hlabel, ← hlen]
    exact hleg σ M (base.bind inputs vals) (base.bind header.vars vals) st jump jump'
      (hstart ▸ hfits.agrees base (hvals.trans hfits.length.symm)) hjump hargs rfl rfl

end HotLoop
