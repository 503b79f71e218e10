import HotLoop.Proofs.Compile.Loop
import HotLoop.Proofs.Walk.Unrolled

/-!
# What a compiled loop does

The code of a loop, entered through the label that the compile call answers with, does turn by turn
what the recorded loop does round by round. A loop with its first iteration peeled off does so if no
input is read once the header's variable for it has been redefined. The second walk does not see
that the variable has another value then; if an input is read that late, the code goes on with the
wrong value.
-/

namespace HotLoop

variable {s : PassSettings} {ops : List Operation} {inputs : List Var} {jumpArgs : List Arg}

/-- The variables of the label that the closing jump goes to. -/
def headerVars (code : List Operation) : List Var :=
  (((code.filter (·.opcode = .label)).getLast?).map (·.argVars)).getD []

theorem simple_turns {driver : Nat} {opts : OptSet} {memo : PureMemo} {shared : OptState} {p : Pass}
    {descr : Descr} {result : Optimized} {entry : EntryPoint} {code : List Operation} {next : Nat}
    (h : WellFormedLoop inputs ops jumpArgs next)
    (hwalk : runFrom (Pass.simple { driver, opts, memo } inputs (ops ++ [.jump jumpArgs descr]))
      (.ofShared shared) = (.ok result, p))
    (hredirect : redirectJump? result.operations entry = some code) :
    RunsLike memo (.label inputs (.target entry) :: code) entry inputs ops jumpArgs := by
  simp only [Pass.simple, runFrom_bind_eq_ok, runFrom_get, runFrom_pure, Prod.mk.injEq,
    Except.ok.injEq] at hwalk
  obtain ⟨last, q, hrun, _, _, ⟨rfl, rfl⟩, rfl, rfl⟩ := hwalk
  obtain ⟨hbody, rfl⟩ := Pass.run_append_eq_ok h.straight rfl hrun
  have ht := tracks_ofInputs (s := { driver, opts, memo }) shared rfl h.inScope jumpArgs
  obtain ⟨bodySites, hout, hemits, hleg⟩ := sameLeg_of_run hbody h.straight ht rfl fun v hv =>
    h.args_inScope v (Arg.mem_filterMap_var?_iff.mpr hv)
  let closing := q.forwarding.apply (.jump jumpArgs descr)
  let jumpSite := Site.ofOp { closing with descr := some (.target entry) }
  let start := Site.ofOp (.label inputs (.target entry))
  have hcode : code = q.out ++ [{ closing with descr := some (.target entry) }] := by
    simp only [redirectJump?, Option.toList_some, List.getLast?_append, List.getLast?_singleton,
      Option.some_or, List.dropLast_concat] at hredirect
    exact (Option.some.inj hredirect).symm
  refine ⟨start :: (bodySites ++ [jumpSite]), ?_, ?_, ?_⟩
  · rw [hcode, hout]
    simp [start, jumpSite, Site.ofOp, Pass.ofShared]
  · exact .cons_ofOp rfl ((CompiledFrom.ofEmitted hemits).append (.cons_ofOp rfl .nil))
  · intro σ M base n vals st
    rw [sites_append]
    have hfrom := fromLabel_cons start (bodySites ++ [jumpSite]) rfl
    change fromLabel (some (.target entry)) _ = _ at hfrom
    have hturn (vals : List Value) (st : σ) : SameLeg jumpArgs.length (some (.target entry))
        (M.run memo (sites 0 ops ++ sites (0 + ops.length) [.jump jumpArgs (.target entry)])
          (base.bind inputs vals) st)
        (M.leg memo base (fromLabel (some (.target entry)) (start :: (bodySites ++ [jumpSite])))
          vals st) := by
      have hinputs : start.op.argVars = inputs := Operation.argVars_label inputs _
      rw [hfrom, Machine.leg, hinputs]
      exact hleg σ M (base.bind inputs vals) (base.bind inputs vals) st _ jumpSite
        (agrees_ofInputs inputs _) rfl rfl rfl rfl
    exact turns_eq_rounds jumpArgs.length (some (.target entry)) hturn
      (fun vals _ st => hturn vals st) n vals st

theorem headerVars_append (before after : List Operation) (header : LoopHeader)
    (hafter : Unlabelled after) : headerVars (before ++ [header.label] ++ after) = header.vars := by
  have hnone : after.filter (·.opcode = .label) = [] := by
    refine List.filter_eq_nil_iff.mpr fun op hop => ?_
    simpa using hafter op hop
  have hlabel : ([header.label] : List Operation).filter (·.opcode = .label) = [header.label] := rfl
  rw [headerVars, List.filter_append, List.filter_append, hnone, hlabel, List.append_nil,
    List.getLast?_concat]
  exact Operation.argVars_label header.vars _

/--
A loop that has been compiled is the only submission, and goes round like the recorded one as long
as its header keeps the inputs. This holds for every set of optimizations, for every memory of pure
calls and for every state of the context; fields that are loaded beforehand come in front of the
code.
-/
theorem Workbench.compileLoop_turns (key : GreenKey) (start : Nat) (inputs : List InputArg)
    (jumpArgs : List Arg) (avoidUnroll : Bool) {w w' : Workbench} {entry : EntryPoint}
    (hw : w.context.registry.WellFormed)
    (h : WellFormedLoop (inputs.map (·.var)) (w.session.history.operations.drop start) jumpArgs
      w.session.history.values.next)
    (hrun : runFrom (compileLoop key start inputs jumpArgs avoidUnroll) w = (.ok (some entry), w')) :
    ∃ trace, SubmitsOnly w.session.driver inputs trace w.context w'.context ∧
      trace.inputs = inputs.map (·.var) ∧
      (KeepsInputs (inputs.map (·.var)) (headerVars trace.operations)
          (w.session.history.operations.drop start) jumpArgs →
        RunsLike w.session.memo trace.operations entry (inputs.map (·.var))
          (w.session.history.operations.drop start) jumpArgs) := by
  obtain ⟨trace, htrace, hlast⟩ := (compileLoop_compiled hw hrun).2 entry rfl
  cases htrace with
  | walkedOnce opts unit result code shared p hstart hwalk hredirect hinputs hops =>
    refine ⟨trace, hlast, hinputs, fun _ => ?_⟩
    rw [hops]
    exact simple_turns h hwalk hredirect
  | unrolled opts unit state pre result header shared₁ shared₂ p₁ p₂ hstart hpre hvalues hpeeled
      hheader hentry hinputs hops =>
    refine ⟨trace, hlast, hinputs, fun hkeeps => ?_⟩
    obtain ⟨header', q, r, hinto⟩ := peeled_eq_ok hpeeled
    cases hheader.symm.trans hinto.isHeader
    have hbody := (hinto.unlabelled (fun heq => by cases heq) h.inScope.ne_label).2
    rw [hops, ← List.cons_append, ← List.cons_append, headerVars_append _ _ header hbody] at hkeeps
    rw [hops]
    rw [← hstart] at h
    exact unrolled_turns h hpre hvalues hpeeled hheader hentry hkeeps

/-- A product of the input, then a sum that the header takes for the input. -/
theorem Workbench.compileLoop_turns_productThenSum :
    let x : Var := ⟨0, .int⟩
    let y : Var := ⟨1, .int⟩
    let inputs : List InputArg := [⟨x, .int 0⟩, ⟨y, .int 0⟩]
    let ops : List Operation := [
      { opcode := .intMul, args := [.var x, .int 5], result := some ⟨2, .int⟩ },
      { opcode := .intAdd, args := [.var x, .int 1], result := some ⟨3, .int⟩ }]
    let jumpArgs : List Arg := [.var ⟨3, .int⟩, .var ⟨2, .int⟩]
    let w : Workbench := {
      context := .ofConfig {}
      session := { driver := default, history := { inputs, operations := ops, values := ⟨4⟩ } } }
    w.context.registry.WellFormed ∧ WellFormedLoop [x, y] ops jumpArgs 4 ∧
      ∃ entry w' loop, runFrom (compileLoop ⟨[]⟩ 0 inputs jumpArgs false) w =
          (.ok (some entry), w') ∧ w'.context.backend.loops = [loop] ∧
        RunsLike .empty loop.operations entry [x, y] ops jumpArgs := by
  intro x y inputs ops jumpArgs w
  have hw : w.context.registry.WellFormed := Registry.wellFormed_empty
  have hloop : WellFormedLoop [x, y] ops jumpArgs 4 := by decide
  refine ⟨hw, hloop, ?_⟩
  have hrun : let r := runFrom (compileLoop ⟨[]⟩ 0 inputs jumpArgs false) w
      (r.1.toOption.join.isSome ∧ r.2.context.backend.loops.map (fun l => headerVars l.operations) =
        [[⟨3, .int⟩, ⟨2, .int⟩]]) := by
    decide +kernel
  generalize hr : runFrom (compileLoop ⟨[]⟩ 0 inputs jumpArgs false) w = r at hrun
  obtain ⟨answer, w'⟩ := r
  obtain ⟨hanswer, hloops⟩ := hrun
  match answer with
  | .error e => cases hanswer
  | .ok none => cases hanswer
  | .ok (some entry) =>
    obtain ⟨trace, ⟨loaded, loop, -, hplain, -, hops, hlast⟩, -, hturns⟩ :=
      compileLoop_turns ⟨[]⟩ 0 inputs jumpArgs false hw hloop hr
    obtain rfl := hplain rfl
    refine ⟨entry, w', loop, rfl, hlast, ?_⟩
    rw [hops]
    refine hturns ?_
    have hlast : w'.context.backend.loops = [loop] := hlast
    have hheader : [headerVars loop.operations] = [[⟨3, .int⟩, ⟨2, .int⟩]] := by
      rw [hlast] at hloops
      exact hloops
    rw [← hops, (List.cons.inj hheader).1]
    decide

/-- A sum that the header takes for the input, then a product of the input. -/
theorem Workbench.compileLoop_not_runsLike_sumThenProduct :
    let x : Var := ⟨0, .int⟩
    let y : Var := ⟨1, .int⟩
    let inputs : List InputArg := [⟨x, .int 0⟩, ⟨y, .int 0⟩]
    let ops : List Operation := [
      { opcode := .intAdd, args := [.var x, .int 1], result := some ⟨2, .int⟩ },
      { opcode := .intMul, args := [.var x, .int 5], result := some ⟨3, .int⟩ }]
    let jumpArgs : List Arg := [.var ⟨2, .int⟩, .var ⟨3, .int⟩]
    let w : Workbench := {
      context := .ofConfig {}
      session := { driver := default, history := { inputs, operations := ops, values := ⟨4⟩ } } }
    w.context.registry.WellFormed ∧ WellFormedLoop [x, y] ops jumpArgs 4 ∧
      ∃ entry w' loop, runFrom (compileLoop ⟨[]⟩ 0 inputs jumpArgs false) w =
          (.ok (some entry), w') ∧ w'.context.backend.loops = [loop] ∧
        ¬ RunsLike .empty loop.operations entry [x, y] ops jumpArgs := by
  intro x y inputs ops jumpArgs w
  refine ⟨Registry.wellFormed_empty, by decide, ?_⟩
  let header : EntryPoint := ⟨0, ⟨0, 1⟩, [.int, .int]⟩
  let entry : EntryPoint := ⟨1, ⟨0, 1⟩, [.int, .int]⟩
  let code : List Operation := [
    .label [x, y] (.target entry),
    { opcode := .intAdd, args := [.var x, .int 1], result := some ⟨2, .int⟩ },
    { opcode := .intMul, args := [.var x, .int 5], result := some ⟨3, .int⟩ },
    .label [⟨2, .int⟩, ⟨3, .int⟩] (.target header),
    { opcode := .intAdd, args := [.var ⟨2, .int⟩, .int 1], result := some ⟨4, .int⟩ },
    { opcode := .intMul, args := [.var ⟨4, .int⟩, .int 5], result := some ⟨5, .int⟩ },
    .jump [.var ⟨4, .int⟩, .var ⟨5, .int⟩] (.target header)]
  have hrun : let r := runFrom (compileLoop ⟨[]⟩ 0 inputs jumpArgs false) w
      r.1.toOption = some (some entry) ∧ r.2.context.backend.loops.map (·.operations) = [code] := by
    decide +kernel
  generalize hr : runFrom (compileLoop ⟨[]⟩ 0 inputs jumpArgs false) w = r at hrun
  obtain ⟨answer, w'⟩ := r
  obtain ⟨hanswer, hloops⟩ := hrun
  cases answer with
  | error e => cases hanswer
  | ok a =>
    cases hanswer
    obtain ⟨loop, hloops, hops⟩ := List.map_eq_singleton_iff.mp hloops
    refine ⟨entry, w', loop, rfl, hloops, ?_⟩
    rw [hops]
    rintro ⟨placed, hplaced, -, hruns⟩
    simp only [code, List.map_eq_cons_iff, List.map_eq_nil_iff] at hplaced
    obtain ⟨⟨_, o₁, e₁⟩, _, rfl, rfl, ⟨_, o₂, e₂⟩, _, rfl, rfl, ⟨_, o₃, e₃⟩, _, rfl, rfl,
      ⟨_, o₄, e₄⟩, _, rfl, rfl, ⟨_, o₅, e₅⟩, _, rfl, rfl, ⟨_, o₆, e₆⟩, _, rfl, rfl,
      ⟨_, o₇, e₇⟩, _, rfl, rfl, rfl⟩ := hplaced
    let M : Machine Unit := {
      valid := true, arith := fun _ _ => .int 0, guard := fun _ _ _ => none
      perform := fun _ _ _ st => (.int 0, st) }
    -- the second round starts with 1, and the code multiplies 2
    have hturns : Ending.stops .label none [.int 2, .int 10] () =
        Ending.stops .label none [.int 2, .int 5] () :=
      hruns Unit M (fun _ => .int 0) 2 [.int 0, .int 0] ()
    revert hturns
    decide

end HotLoop
