import HotLoop.Optimize.Request
import HotLoop.Proofs.Walk.Header

/-!
# What a pass hands out

A pass never touches the entry points that there are, however it ends; the second walk over a loop
adds one to the table. No pass puts a label into its output, unless one has been recorded.
-/

namespace HotLoop

/-- No operation is a label. -/
def Unlabelled (ops : List Operation) : Prop := ∀ op ∈ ops, op.opcode ≠ .label

instance (ops : List Operation) : Decidable (Unlabelled ops) :=
  inferInstanceAs (Decidable (∀ op ∈ ops, op.opcode ≠ .label))

theorem Unlabelled.append {ops ops' : List Operation} (h : Unlabelled ops) (h' : Unlabelled ops') :
    Unlabelled (ops ++ ops') := by
  intro op hop
  rcases List.mem_append.mp hop with hop | hop
  · exact h op hop
  · exact h' op hop

namespace Pass

variable {s : PassSettings} {p p' : Pass} {inputs : List Var} {ops : List Operation}

section Entries

theorem simple_goes (s : PassSettings) (p : Pass) (inputs : List Var) (ops : List Operation) :
    Goes Extends Rejection.Inconsistent (simple s inputs ops) p :=
  .bind (run_goes ops) fun _ _ _ => .get_bind (.pure _)

theorem preamble_goes (s : PassSettings) (p : Pass) (inputs : List Var) (endArgs : List Arg)
    (ops : List Operation) :
    Goes Extends Rejection.Inconsistent (preamble s inputs endArgs ops) p :=
  .bind (run_goes ops) fun _ _ _ => .get_bind (.pure _)

theorem bridge_goes (s : PassSettings) (p : Pass) (registry : Registry) (inputs : List Var)
    (ops : List Operation) (anyEntry : Bool) :
    Goes Extends Rejection.Inconsistent (bridge s registry inputs ops anyEntry) p := by
  refine .bind (run_goes ops) fun last q _ => ?_
  split
  · split
    · refine .get_bind ?_
      dsimp only
      split
      · exact .pure _
      · exact .pure _
    · exact .throw (Rejection.not_inconsistent_invalid _)
  · exact .throw (Rejection.not_inconsistent_invalid _)

theorem peeled_goes (s : PassSettings) (p : Pass) (inputs : List Var) (closing : Operation)
    (ops : List Operation) (state : ExportedState) :
    Goes Extends Rejection.Inconsistent (peeled s inputs closing ops state) p := by
  unfold peeled
  split
  · split
    · exact .throw_bind (Rejection.not_inconsistent_invalid _)
    · refine .bind (extendHeaders_goes_of_fresh (fun k _ => fresh_goes k) ..) fun header q _ => ?_
      refine .bind (.modify ⟨List.prefix_rfl, Nat.le_refl _⟩) fun _ _ _ => ?_
      refine .bind (run_goes ops) fun _ r _ => ?_
      refine .get_bind ?_
      dsimp only
      split
      · exact .throw_bind (Rejection.not_inconsistent_invalid _)
      · exact .bind (.set ⟨List.prefix_append .., Nat.le_refl _⟩) fun _ _ _ => .pure _
  · exact .throw (Rejection.not_inconsistent_invalid _)

end Entries

end Pass

section Passes

theorem preamble_eq_ok {endArgs : List Arg} {state : ExportedState} {out : List Operation}
    (h : runFrom (Pass.preamble s inputs endArgs ops) p = (.ok (state, out), p')) :
    ∃ last, runFrom (Pass.run s ops) p = (.ok last, p') ∧
      state.endArgs = endArgs.map p'.forwarding.resolve ∧ out = p'.out := by
  simp only [Pass.preamble, runFrom_bind_eq_ok, runFrom_get, runFrom_pure, Prod.mk.injEq,
    Except.ok.injEq] at h
  obtain ⟨last, q, hrun, _, _, ⟨rfl, rfl⟩, ⟨rfl, rfl⟩, rfl⟩ := h
  exact ⟨last, hrun, rfl, rfl⟩

/-- What the second walk has made: the header, then the loop proper with its closing jump. -/
structure PeeledInto (s : PassSettings) (p p' : Pass) (inputs : List Var) (closing : Operation)
    (ops : List Operation) (endArgs : List Arg) (result : Optimized) (header : LoopHeader)
    (q r : Pass) : Prop where
  isHeader : result.header = some header
  arity : inputs.length = endArgs.length
  jumpArity : closing.args.length = header.vars.length
  built : ExtendsHeader inputs [] 0 p.shared.values.next endArgs header.vars header.copies
    q.shared.values.next
  start : q.forwarding = p.forwarding.rename (inputs.zip header.vars) ∧ q.out = p.out ∧
    q.guarded = p.guarded
  entered : ∃ q₀, runFrom (Pass.header inputs endArgs) p = (.ok (header.vars, header.copies), q₀) ∧
    q = { q₀ with forwarding := q₀.forwarding.rename (inputs.zip header.vars) }
  run : ∃ last, runFrom (Pass.run { s with renames := true } ops) q = (.ok last, r)
  operations : result.operations =
    r.out ++ [{ r.forwarding.apply closing with descr := some (.target header.entry) }]
  values : p'.shared.values = r.shared.values
  entryKinds : header.entry.argKinds = header.vars.map (·.kind)
  entry_le : p.shared.entries.homes.length ≤ header.entry.id
  entry_lt : header.entry.id < p'.shared.entries.homes.length

theorem peeled_eq_ok {closing : Operation} {state : ExportedState} {result : Optimized}
    (h : runFrom (Pass.peeled s inputs closing ops state) p = (.ok result, p')) :
    ∃ header q r, PeeledInto s p p' inputs closing ops state.endArgs result header q r := by
  unfold Pass.peeled at h
  split at h
  · rename_i unit hdescr
    split at h
    · rw [runFrom_bind_eq_ok] at h
      obtain ⟨_, _, hthrow, -⟩ := h
      cases hthrow
    · rename_i harity
      dsimp only at h
      simp only [runFrom_bind_eq_ok, runFrom_modify, runFrom_get, Prod.mk.injEq,
        Except.ok.injEq] at h
      obtain ⟨⟨vars, copies⟩, q, hheader, _, _, ⟨-, rfl⟩, last, r, hrun, _, _, ⟨rfl, rfl⟩, h⟩ := h
      obtain ⟨vs, cs, rfl, rfl, hbuilt, values, rfl⟩ := extendsHeader_of_foldlM hheader
      split at h
      · rw [runFrom_bind_eq_ok] at h
        obtain ⟨_, _, hthrow, -⟩ := h
        cases hthrow
      · rename_i hjump
        simp only [runFrom_bind_eq_ok, runFrom_set, runFrom_pure, Prod.mk.injEq,
          Except.ok.injEq] at h
        obtain ⟨_, _, ⟨-, rfl⟩, rfl, rfl⟩ := h
        let q : Pass := { p with
          shared := { p.shared with values }
          forwarding := p.forwarding.rename (inputs.zip vars) }
        have hextends : Pass.Extends q r := by
          have hgoes := (Pass.run_goes (s := { s with renames := true }) (p := q) ops).1
          rwa [hrun] at hgoes
        refine ⟨_, q, r, rfl, Decidable.not_not.mp harity, ?_, hbuilt, ⟨rfl, rfl, rfl⟩,
          ⟨_, hheader, rfl⟩, ⟨last, hrun⟩, rfl, rfl, rfl, hextends.homes.length_le, ?_⟩
        · have hlen := Decidable.not_not.mp hjump
          simp only [Forwarding.apply, List.length_map] at hlen
          exact hlen
        · simp [EntryTable.make]
  · cases h

end Passes

section Endings

theorem find?_of_run {last : Option Operation} (hrun : runFrom (Pass.run s ops) p = (.ok last, p')) :
    last = (ops.find? (·.isFinal)).map p'.forwarding.apply := by
  induction ops generalizing p with
  | nil =>
    cases hrun
    rfl
  | cons op ops ih =>
    cases hfinal : op.isFinal with
    | true =>
      obtain ⟨rfl, rfl⟩ := Pass.run_cons_eq_ok_of_isFinal hfinal hrun
      rw [List.find?_cons_of_pos hfinal]
      rfl
    | false =>
      obtain ⟨q, -, hrest⟩ := Pass.run_cons_eq_ok hfinal hrun
      rw [List.find?_cons_of_neg (by simp [hfinal])]
      exact ih hrest

theorem Pass.Stepped.not_isFinal {op : Operation} (h : Pass.Stepped s p p' op)
    (hop : op.isFinal = false) (hout : ∀ o ∈ p.out, o.isFinal = false) :
    ∀ o ∈ p'.out, o.isFinal = false := by
  cases h with
  | drop _ heq =>
    obtain ⟨deps, rfl⟩ := heq
    exact hout
  | replace _ _ _ heq =>
    obtain ⟨deps, rfl⟩ := heq
    exact hout
  | keep op' e t hfate hkeeps =>
    obtain ⟨deps, hkeeps⟩ := hkeeps
    rw [hkeeps.out]
    intro o ho
    rcases List.mem_append.mp ho with ho | ho
    · exact hout o ho
    · rw [List.mem_singleton.mp ho, Operation.isFinal, hkeeps.opcode]
      rcases keep_cases hfate with ⟨rfl, -, -⟩ | ⟨-, rfl⟩
      · exact hop
      · rfl

/-- What a walk has put into its output does not end the trace. -/
theorem not_isFinal_of_run {last : Option Operation}
    (hrun : runFrom (Pass.run s ops) p = (.ok last, p')) (hout : ∀ o ∈ p.out, o.isFinal = false) :
    ∀ o ∈ p'.out, o.isFinal = false := by
  induction ops generalizing p with
  | nil =>
    cases hrun
    exact hout
  | cons op ops ih =>
    cases hfinal : op.isFinal with
    | true =>
      obtain ⟨-, rfl⟩ := Pass.run_cons_eq_ok_of_isFinal hfinal hrun
      exact hout
    | false =>
      obtain ⟨q, hstepped, hrest⟩ := Pass.run_cons_eq_ok hfinal hrun
      exact ih hrest (hstepped.not_isFinal hfinal hout)

theorem simple_eq_ok {result : Optimized}
    (h : runFrom (Pass.simple s inputs ops) p = (.ok result, p')) :
    result = { inputs, deps := p'.deps, operations :=
      p'.out ++ ((ops.find? (·.isFinal)).map p'.forwarding.apply).toList } ∧
    ∃ last, runFrom (Pass.run s ops) p = (.ok last, p') := by
  simp only [Pass.simple, runFrom_bind_eq_ok, runFrom_get, runFrom_pure, Prod.mk.injEq,
    Except.ok.injEq] at h
  obtain ⟨last, q, hrun, _, _, ⟨rfl, rfl⟩, rfl, rfl⟩ := h
  exact ⟨by rw [← find?_of_run hrun], last, hrun⟩

theorem not_isGuard_of_find?_isFinal {ops : List Operation} {f : Forwarding} :
    ∀ op ∈ ((ops.find? (·.isFinal)).map f.apply).toList, op.isGuard = false := by
  intro op hop
  obtain ⟨o, ho, rfl⟩ := Option.map_eq_some_iff.mp (Option.mem_toList.mp hop)
  have hfinal : o.isFinal = true := List.find?_some ho
  exact OpCode.not_isGuard_of_isFinal hfinal

/-- A trace that is walked once, with the operation that ends it. -/
theorem simple_append_eq_ok {result : Optimized} {closing : Operation}
    (hops : ∀ op ∈ ops, op.isFinal = false) (hclosing : closing.isFinal = true)
    (h : runFrom (Pass.simple s inputs (ops ++ [closing])) p = (.ok result, p')) :
    runFrom (Pass.run s ops) p = (.ok none, p') ∧ result =
      { inputs, operations := p'.out ++ [p'.forwarding.apply closing], deps := p'.deps } := by
  simp only [Pass.simple, runFrom_bind_eq_ok, runFrom_get, runFrom_pure, Prod.mk.injEq,
    Except.ok.injEq] at h
  obtain ⟨last, q, hrun, _, _, ⟨rfl, rfl⟩, rfl, rfl⟩ := h
  obtain ⟨hbody, rfl⟩ := Pass.run_append_eq_ok hops hclosing hrun
  exact ⟨hbody, rfl⟩

theorem argKinds_of_pickEntry? {entries : List EntryPoint} {kinds : List Kind} {anyEntry : Bool}
    {entry : EntryPoint} (h : Pass.pickEntry? entries kinds anyEntry = some entry) :
    entry.argKinds = kinds := by
  unfold Pass.pickEntry? at h
  split at h
  · simpa using List.find?_some h
  · simpa using (Option.filter_eq_some_iff.mp h).2

/-- Where the jump at the end of a bridge goes: to an entry point of its unit, or nowhere for now. -/
inductive BridgedTo (registry : Registry) (inputs : List Var) (anyEntry : Bool) (p : Pass)
    (jump : Operation) : Optimized → Prop where
  | entered (unit : UnitHandle) (entry : EntryPoint)
      (hpick : Pass.pickEntry? (((registry.get? unit).map (·.entries)).getD [])
        (jump.args.map Arg.kind) anyEntry = some entry) :
      BridgedTo registry inputs anyEntry p jump { inputs, deps := p.deps, operations :=
        p.out ++ [{ jump with descr := some (.target entry) }] }
  | waiting : BridgedTo registry inputs anyEntry p jump (.ofState ⟨inputs, jump.args, p.deps⟩ p.out)

theorem bridge_eq_ok {registry : Registry} {anyEntry : Bool} {result : Optimized}
    (h : runFrom (Pass.bridge s registry inputs ops anyEntry) p = (.ok result, p')) :
    ∃ jump, runFrom (Pass.run s ops) p = (.ok (some jump), p') ∧ jump.opcode = .jump ∧
      BridgedTo registry inputs anyEntry p' jump result := by
  simp only [Pass.bridge, runFrom_bind_eq_ok] at h
  obtain ⟨last, q, hrun, h⟩ := h
  split at h
  · rename_i jump hjump
    obtain ⟨rfl, hopcode⟩ := Option.filter_eq_some_iff.mp hjump
    split at h
    · rename_i unit _
      simp only [runFrom_bind_eq_ok, runFrom_get, Prod.mk.injEq, Except.ok.injEq] at h
      obtain ⟨_, _, ⟨rfl, rfl⟩, h⟩ := h
      split at h
      · rename_i entry hpick
        cases h
        exact ⟨jump, hrun, by simpa using hopcode, .entered unit entry hpick⟩
      · cases h
        exact ⟨jump, hrun, by simpa using hopcode, .waiting⟩
    · cases h
  · cases h

/-- A bridge jumps to the entry point that it has found, or stops in front of its jump. -/
theorem bridge_append_eq_ok {registry : Registry} {anyEntry : Bool} {result : Optimized}
    {closing : Operation} (hops : ∀ op ∈ ops, op.isFinal = false) (hclosing : closing.isFinal = true)
    (h : runFrom (Pass.bridge s registry inputs (ops ++ [closing]) anyEntry) p =
      (.ok result, p')) :
    runFrom (Pass.run s ops) p = (.ok none, p') ∧
      ((∃ entry, entry.argKinds = (closing.args.map p'.forwarding.resolve).map Arg.kind ∧
          result = { inputs, deps := p'.deps, operations :=
            p'.out ++ [{ p'.forwarding.apply closing with descr := some (.target entry) }] }) ∨
        result = .ofState ⟨inputs, closing.args.map p'.forwarding.resolve, p'.deps⟩ p'.out) := by
  obtain ⟨jump, hrun, -, hto⟩ := bridge_eq_ok h
  obtain ⟨hbody, hlast⟩ := Pass.run_append_eq_ok hops hclosing hrun
  obtain rfl := Option.some.inj hlast
  cases hto with
  | entered unit entry hpick => exact ⟨hbody, .inl ⟨entry, argKinds_of_pickEntry? hpick, rfl⟩⟩
  | waiting => exact ⟨hbody, .inr rfl⟩

/--
A trace that is walked once gives the output of the walk, and at most the operation that ends the
trace behind it.
-/
theorem PassKind.optimize_eq_ok {kind : PassKind} {registry : Registry} {result : Optimized}
    (hkind : ∀ closing state, kind ≠ .peeled closing state)
    (h : runFrom (kind.optimize s registry inputs ops) p = (.ok result, p')) :
    ∃ last tail, runFrom (Pass.run s ops) p = (.ok last, p') ∧
      result.operations = p'.out ++ tail ∧ ∀ op ∈ tail, op.isGuard = false := by
  have hsimple (h : runFrom (Pass.simple s inputs ops) p = (.ok result, p')) :
      ∃ last tail, runFrom (Pass.run s ops) p = (.ok last, p') ∧
        result.operations = p'.out ++ tail ∧ ∀ op ∈ tail, op.isGuard = false := by
    obtain ⟨rfl, last, hrun⟩ := simple_eq_ok h
    exact ⟨last, _, hrun, rfl, not_isGuard_of_find?_isFinal⟩
  cases kind with
  | simple => exact hsimple h
  | preamble endArgs =>
    simp only [PassKind.optimize] at h
    split at h
    · simp only [runFrom_bind_eq_ok, runFrom_pure, Prod.mk.injEq, Except.ok.injEq] at h
      obtain ⟨⟨state, out⟩, _, hpre, rfl, rfl⟩ := h
      obtain ⟨last, hrun, -, rfl⟩ := preamble_eq_ok hpre
      exact ⟨last, [], hrun, (List.append_nil _).symm, by simp⟩
    · exact hsimple h
  | bridge anyEntry =>
    obtain ⟨jump, hrun, hop, hto⟩ := bridge_eq_ok h
    cases hto with
    | entered unit entry =>
      refine ⟨some jump, _, hrun, rfl, fun op hop' => ?_⟩
      rw [List.mem_singleton.mp hop']
      simp [Operation.isGuard, hop, OpCode.isGuard]
    | waiting => exact ⟨some jump, [], hrun, (List.append_nil _).symm, by simp⟩
  | peeled closing state => exact absurd rfl (hkind closing state)

end Endings

section Labels

theorem Pass.Stepped.unlabelled {op : Operation} (h : Pass.Stepped s p p' op)
    (hop : op.opcode ≠ .label) (hout : Unlabelled p.out) : Unlabelled p'.out := by
  cases h with
  | drop _ heq =>
    obtain ⟨deps, rfl⟩ := heq
    exact hout
  | replace _ _ _ heq =>
    obtain ⟨deps, rfl⟩ := heq
    exact hout
  | keep op' e t hfate hkeeps =>
    obtain ⟨deps, hkeeps⟩ := hkeeps
    rw [hkeeps.out]
    refine hout.append fun o ho => ?_
    rw [List.mem_singleton.mp ho, hkeeps.opcode]
    rcases keep_cases hfate with ⟨rfl, -, -⟩ | ⟨-, rfl⟩
    · exact hop
    · decide

theorem unlabelled_of_run {last : Option Operation}
    (hrun : runFrom (Pass.run s ops) p = (.ok last, p')) (hops : Unlabelled ops)
    (hout : Unlabelled p.out) : Unlabelled (p'.out ++ last.toList) := by
  induction ops generalizing p with
  | nil =>
    simp only [Pass.run, runFrom_pure, Prod.mk.injEq, Except.ok.injEq] at hrun
    obtain ⟨rfl, rfl⟩ := hrun
    exact hout.append (by simp [Unlabelled])
  | cons op ops ih =>
    have hop := hops op (List.mem_cons_self ..)
    cases hfinal : op.isFinal with
    | true =>
      obtain ⟨rfl, rfl⟩ := Pass.run_cons_eq_ok_of_isFinal hfinal hrun
      refine hout.append fun o ho => ?_
      rw [List.mem_singleton.mp ho]
      exact hop
    | false =>
      obtain ⟨q, hstepped, hrest⟩ := Pass.run_cons_eq_ok hfinal hrun
      exact ih hrest (fun o ho => hops o (List.mem_cons_of_mem _ ho))
        (hstepped.unlabelled hop hout)

theorem unlabelled_ofShared (shared : OptState) : Unlabelled (Pass.ofShared shared).out := by
  simp [Unlabelled, Pass.ofShared]

theorem Unlabelled.of_append_left {ops ops' : List Operation} (h : Unlabelled (ops ++ ops')) :
    Unlabelled ops := fun op hop => h op (List.mem_append_left _ hop)

theorem Unlabelled.of_append_right {ops ops' : List Operation} (h : Unlabelled (ops ++ ops')) :
    Unlabelled ops' := fun op hop => h op (List.mem_append_right _ hop)

variable {shared : OptState} {result : Optimized}

theorem unlabelled_of_simple
    (h : runFrom (Pass.simple s inputs ops) (.ofShared shared) = (.ok result, p'))
    (hops : Unlabelled ops) : Unlabelled result.operations := by
  simp only [Pass.simple, runFrom_bind_eq_ok, runFrom_get, runFrom_pure, Prod.mk.injEq,
    Except.ok.injEq] at h
  obtain ⟨last, q, hrun, _, _, ⟨rfl, rfl⟩, rfl, rfl⟩ := h
  exact unlabelled_of_run hrun hops (unlabelled_ofShared shared)

theorem unlabelled_of_preamble {endArgs : List Arg} {state : ExportedState} {out : List Operation}
    (h : runFrom (Pass.preamble s inputs endArgs ops) (.ofShared shared) = (.ok (state, out), p'))
    (hops : Unlabelled ops) : Unlabelled out := by
  obtain ⟨last, hrun, -, rfl⟩ := preamble_eq_ok h
  exact (unlabelled_of_run hrun hops (unlabelled_ofShared shared)).of_append_left

theorem unlabelled_of_bridge {registry : Registry} {anyEntry : Bool}
    (h : runFrom (Pass.bridge s registry inputs ops anyEntry) (.ofShared shared) =
      (.ok result, p')) (hops : Unlabelled ops) : Unlabelled result.operations := by
  obtain ⟨jump, hrun, hop, hto⟩ := bridge_eq_ok h
  have hout := (unlabelled_of_run hrun hops (unlabelled_ofShared shared)).of_append_left
  cases hto with
  | entered unit entry =>
    refine hout.append fun o ho => ?_
    rw [List.mem_singleton.mp ho]
    simp [hop]
  | waiting => exact hout

theorem ExtendsHeader.opcode_eq {header vs : List Var} {i next next' : Nat} {l : List Arg}
    {cs : List Operation} (h : ExtendsHeader inputs header i next l vs cs next') :
    ∀ op ∈ cs, op.opcode = .sameAs := by
  induction h with
  | nil => simp
  | reuse _ _ ih => exact ih
  | copy _ _ ih =>
    intro op hop
    rcases List.mem_cons.mp hop with rfl | hop
    · rfl
    · exact ih op hop

/-- The header's label stands alone between the copies and the loop proper. -/
theorem PeeledInto.unlabelled {closing : Operation} {endArgs : List Arg} {header : LoopHeader}
    {q r : Pass}
    (h : PeeledInto s (.ofShared shared) p' inputs closing ops endArgs result header q r)
    (hclosing : closing.opcode ≠ .label) (hops : Unlabelled ops) :
    Unlabelled header.copies ∧ Unlabelled result.operations := by
  refine ⟨fun op hop => ?_, ?_⟩
  · rw [h.built.opcode_eq op hop]
    decide
  · obtain ⟨last, hrun⟩ := h.run
    have hout := unlabelled_of_run hrun hops (h.start.2.1 ▸ unlabelled_ofShared shared)
    rw [h.operations]
    refine hout.of_append_left.append fun o ho => ?_
    rw [List.mem_singleton.mp ho]
    exact hclosing

end Labels

end HotLoop
