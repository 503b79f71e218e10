import HotLoop.Proofs.Kinds.Code

/-!
# Compile calls keep to entry points

What a compile call submits keeps to the entry points that it names. For the jump back of a loop it
takes that the loop goes round with values of the kinds of its inputs.
-/

namespace HotLoop

/-- A recorded loop that keeps kinds, and goes round with values of the kinds of its inputs. -/
structure TypedLoop (κ : Nat → Kind) (inputs : List Var) (ops : List Operation) (args : List Arg)
    (next : Nat) : Prop where
  typedInputs : ∀ v ∈ inputs, v.Typed κ next
  typedOps : ∀ op ∈ ops, op.Typed κ next
  typedArgs : ∀ a ∈ args, a.Typed κ next
  sameKinds : args.map Arg.kind = inputs.map (·.kind)

namespace Workbench

variable {w : Workbench} {typed : Prop} {opts : OptSet} {ops : List Operation}
  {jumpArgs : List Arg}

section Loops

variable {key : GreenKey} {inputs : List InputArg}

theorem compileSimpleLoop_fits (hdriver : w.session.driver.virtualizable = none)
    (hmemo : w.session.memo = .empty) (hops : Straight ops)
    (htyped : typed → ∃ κ, TypedLoop κ (inputs.map (·.var)) ops jumpArgs
      w.session.history.values.next) :
    Sound (fittingCode typed) (compileSimpleLoop key inputs ops jumpArgs opts) w := by
  refine compileSimpleLoop_sound fun unit entry result p code hentry hwalk hredirect => ?_
  obtain ⟨hrun, rfl⟩ := simple_append_eq_ok hops.inner rfl hwalk
  rw [redirectJump?_append rfl] at hredirect
  cases hredirect
  refine (entriesFit_loop [] (by simp) hentry (hops.run hrun (straight_ofShared _)) rfl
    rfl fun ht => ?_).sendable hdriver
  obtain ⟨κ, hloop⟩ := htyped ht
  obtain ⟨κ', hkeeps⟩ := Pass.keepsTypes_of_run hmemo hrun (.empty κ _) hloop.typedOps
  rw [hentry, ← hloop.sameKinds]
  exact hkeeps.typed.map_kind_resolve fun a ha => (hloop.typedArgs a ha).mono hkeeps.same hkeeps.le

private theorem entriesFit_peeled {s : PassSettings} {shared : OptState} {p : Pass}
    {vars : List Var} {args : List Arg} {unit : UnitHandle} {state : ExportedState}
    {result : Optimized} {header : LoopHeader} (before : List Operation) (hmemo : s.memo = .empty)
    (hops : Straight ops) (hbefore : ∀ op ∈ before,
      op.opcode = .label ∧ op.FitsEntry ∨ op.isFinal = false ∧ op.opcode ≠ .label)
    (hpeeled : runFrom (Pass.peeled s vars (.jump args (.cell unit)) ops state)
      (.ofShared shared) = (.ok result, p)) (hheader : result.header = some header)
    (htyped : typed → ∃ κ, TypedLoop κ vars ops args shared.values.next ∧
      (∀ a ∈ state.endArgs, a.Typed κ shared.values.next) ∧
      state.endArgs.map Arg.kind = vars.map (·.kind)) :
    EntriesFit typed (before ++ header.copies ++ [header.label] ++ result.operations) := by
  obtain ⟨header', q, r, hinto⟩ := peeled_eq_ok hpeeled
  cases hheader.symm.trans hinto.isHeader
  obtain ⟨last, hrun⟩ := hinto.run
  have hq : Straight q.out := by
    rw [hinto.start.2.1]
    exact straight_ofShared shared
  rw [hinto.operations, List.append_assoc (before ++ header.copies)]
  refine entriesFit_loop _ (fun op hop => ?_) hinto.entryKinds (hops.run hrun hq) rfl rfl fun ht => ?_
  · rcases List.mem_append.mp hop with hop | hop
    · exact hbefore op hop
    · have hcopy := hinto.built.opcode_eq op hop
      exact .inr ⟨by rw [Operation.isFinal, hcopy]; rfl, by rw [hcopy]; decide⟩
  · obtain ⟨κ, hloop, hend, hkinds⟩ := htyped ht
    have hjump := hinto.map_kind_resolve hmemo (.empty κ _) hloop.typedInputs hloop.typedOps
      hloop.typedArgs hend
      hkinds
    rw [hinto.entryKinds, hinto.built.map_kind, hkinds, ← hloop.sameKinds]
    exact hjump

theorem compileUnrolledLoop_fits (hdriver : w.session.driver.virtualizable = none)
    (hmemo : w.session.memo = .empty) (hops : Straight ops)
    (htyped : typed → ∃ κ, TypedLoop κ (inputs.map (·.var)) ops jumpArgs
      w.session.history.values.next) :
    Sound (fittingCode typed) (compileUnrolledLoop key inputs ops jumpArgs opts) w := by
  refine compileUnrolledLoop_sound
    fun unit entry state preamble shared result header p₁ p₂ hentry hpre hvalues hpeeled hheader =>
      ?_
  obtain ⟨last, hrun, hend, rfl⟩ := preamble_eq_ok hpre
  have hout := hops.run hrun (straight_ofShared _)
  have hfits : EntriesFit typed _ := entriesFit_peeled
    (.label (inputs.map (·.var)) (.target entry) :: p₁.out) hmemo hops (fun op hop => ?_) hpeeled
    hheader fun ht => ?_
  · exact hfits.sendable hdriver
  · rcases List.mem_cons.mp hop with rfl | hop
    · exact .inl ⟨rfl, fitsEntry_label hentry⟩
    · exact .inr ⟨hout.inner op hop, hout.unlabelled op hop⟩
  · obtain ⟨κ, hloop⟩ := htyped ht
    obtain ⟨κ', hkeeps⟩ := Pass.keepsTypes_of_run hmemo hrun (.empty κ _) hloop.typedOps
    obtain ⟨rfl, hnext⟩ := hkeeps.plain rfl
    have hnext : shared.values.next = w.session.history.values.next := by
      rw [hvalues]
      exact hnext
    have hargs : ∀ a ∈ jumpArgs, a.Typed κ' p₁.shared.values.next := fun a ha =>
      (hloop.typedArgs a ha).mono hkeeps.same hkeeps.le
    refine ⟨κ', hnext ▸ hloop, fun a ha => ?_, ?_⟩
    · rw [hend] at ha
      obtain ⟨b, hb, rfl⟩ := List.mem_map.mp ha
      rw [hvalues]
      exact (hkeeps.typed.resolve (hargs b hb)).1
    · rw [hend, hkeeps.typed.map_kind_resolve hargs]
      exact hloop.sameKinds

theorem compileLoop_fits {start : Nat} {avoidUnroll : Bool}
    (hdriver : w.session.driver.virtualizable = none) (hmemo : w.session.memo = .empty)
    (hops : Straight (w.session.history.operations.drop start))
    (htyped : typed → ∃ κ, TypedLoop κ (inputs.map (·.var))
      (w.session.history.operations.drop start) jumpArgs w.session.history.values.next) :
    Sound (fittingCode typed) (compileLoop key start inputs jumpArgs avoidUnroll) w :=
  compileLoop_goes (fun _ => compileSimpleLoop_fits hdriver hmemo hops htyped) fun _ _ =>
    compileUnrolledLoop_fits hdriver hmemo hops htyped

end Loops

section Bridges

variable {resumeKey : ResumeKey} {closing : Operation}

/-- A bridge is recorded straight on to its end, which names no entry point. -/
structure StraightBridge (session : Session) (ops : List Operation) (closing : Operation) :
    Prop where
  operations : session.history.operations = ops ++ [closing]
  straight : Straight ops
  isFinal : closing.isFinal = true
  target : ∀ e, closing.descr ≠ some (.target e)

theorem compileTrace_fits (hdriver : w.session.driver.virtualizable = none)
    (h : StraightBridge w.session ops closing) :
    Sound (fittingCode typed) (compileTrace resumeKey) w := by
  refine compileTrace_sound fun result p hstate hpass => ?_
  obtain ⟨hrun, -, hresult⟩ :=
    exists_walk_of_tracePass h.operations h.straight.inner h.isFinal hpass
  obtain ⟨descr, -, hops, hdescr⟩ | ⟨state, hstate', -⟩ := hresult
  · rw [hops]
    refine (entriesFit_append (h.straight.run hrun (straight_ofShared _)) (fun hlabel => ?_)
      fun _ e he => ?_).sendable hdriver
    · have hlabel : closing.opcode = .label := hlabel
      have hfinal := h.isFinal
      rw [Operation.isFinal, hlabel] at hfinal
      cases hfinal
    · have he : descr = some (.target e) := he
      rcases hdescr with rfl | ⟨entry, rfl, hkinds⟩
      · exact absurd he (h.target e)
      · cases he
        exact hkinds.symm
  · cases hstate.symm.trans hstate'

/--
A session in which a bridge waits, and in which the loop that it leads to has been recorded once
more. If `typed` holds, then kinds have been kept in both, and the bridge jumps with variables of
the kinds of the loop's inputs.
-/
structure StraightRetrace (typed : Prop) (session : Session) (start : Nat) (inputs : List Var)
    (jumpArgs : List Arg) : Prop where
  waits : ∃ (w : Workbench) (resumeKey : ResumeKey) (ops : List Operation) (closing : Operation),
    StraightBridge w.session ops closing ∧ w.session.memo = .empty ∧
    w.LeavesWaiting resumeKey session ∧
    (typed → closing.opcode = .jump → ∃ κ,
      (∀ op ∈ ops, op.Typed κ w.session.history.values.next) ∧
      (∀ a ∈ closing.args, a.Typed κ w.session.history.values.next) ∧
      closing.args.map Arg.kind = inputs.map (·.kind) ∧
      ∃ κ', SameKinds w.session.history.values.next κ κ' ∧
        TypedLoop κ' inputs (session.history.operations.drop start) jumpArgs
          session.history.values.next)
  straight : Straight (session.history.operations.drop start)

theorem compileRetrace_fits {key : GreenKey} {start : Nat} {inputs : List Var}
    (hdriver : w.session.driver.virtualizable = none) (hmemo : w.session.memo = .empty)
    (h : StraightRetrace typed w.session start inputs jumpArgs) :
    Sound (fittingCode typed) (compileRetrace key start inputs jumpArgs resumeKey) w := by
  refine compileRetrace_sound
    fun unit bridge state shared result header p hwaiting hvalues hpeeled hheader => ?_
  obtain ⟨w₀, resumeKey₀, ops₀, closing₀, hbridge, hmemo₀, hleaves, htyped⟩ := h.waits
  obtain ⟨p₀, hrun, -, hops, hforwarding, hjump, hend, hle⟩ := exists_walk_of_leavesWaiting
    hbridge.operations hbridge.straight.inner hbridge.isFinal hleaves hwaiting
  have hout := hbridge.straight.run hrun (straight_ofShared _)
  have hfits : EntriesFit typed _ := entriesFit_peeled p₀.out hmemo h.straight
    (fun op hop => .inr ⟨hout.inner op hop, hout.unlabelled op hop⟩) hpeeled hheader fun ht => ?_
  · rw [← hops] at hfits
    exact ⟨hforwarding, hfits.sendable hdriver⟩
  · obtain ⟨κ, hops, hargs, hkinds, κ', hκ, hloop⟩ := htyped ht hjump
    obtain ⟨κ₁, hkeeps⟩ := Pass.keepsTypes_of_run hmemo₀ hrun (.empty κ _) hops
    obtain ⟨rfl, hnext⟩ := hkeeps.plain rfl
    have hargs' : ∀ a ∈ closing₀.args, a.Typed κ₁ p₀.shared.values.next := fun a ha =>
      (hargs a ha).mono hkeeps.same hkeeps.le
    refine ⟨κ', hvalues ▸ hloop, fun a ha => ?_, ?_⟩
    · rw [hend] at ha
      obtain ⟨b, hb, rfl⟩ := List.mem_map.mp ha
      rw [hvalues]
      refine (hkeeps.typed.resolve (hargs' b hb)).1.mono ?_ hle
      rw [hnext]
      exact hκ
    · rw [hend, hkeeps.typed.map_kind_resolve hargs']
      exact hkinds

end Bridges

end Workbench

end HotLoop
