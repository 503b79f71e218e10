import HotLoop.Proofs.Consistency.Code

/-!
# Results of checks

A tracer does not give results to checks of quasi-immutable fields, but recorded code may have them.
A walk does not look at such a result: what it puts out is the same without.
-/

namespace HotLoop

/-- The operation without the result that a check of a quasi-immutable field may have. -/
def Operation.silence (op : Operation) : Operation :=
  if op.opcode = .quasiimmutField then { op with result := none } else op

namespace Operation

variable {op : Operation}

theorem silence_of_ne (h : op.opcode ≠ .quasiimmutField) : op.silence = op := if_neg h

@[simp] theorem silence_opcode (op : Operation) : op.silence.opcode = op.opcode := by
  unfold silence
  split <;> rfl

@[simp] theorem silence_args (op : Operation) : op.silence.args = op.args := by
  unfold silence
  split <;> rfl

@[simp] theorem silence_descr (op : Operation) : op.silence.descr = op.descr := by
  unfold silence
  split <;> rfl

@[simp] theorem silence_failArgs (op : Operation) : op.silence.failArgs = op.failArgs := by
  unfold silence
  split <;> rfl

theorem result_of_silence {r : Var} (h : op.silence.result = some r) : op.result = some r := by
  unfold silence at h
  split at h
  · cases h
  · exact h

@[simp] theorem silence_uses (op : Operation) : op.silence.uses = op.uses := by
  simp only [uses, argVars, failVars, failSlots, silence_args, silence_failArgs]

@[simp] theorem silence_defines? (op : Operation) : op.silence.defines? = op.defines? := by
  unfold defines?
  rw [silence_opcode]
  split
  · rfl
  · rename_i hcheck
    rw [silence_of_ne]
    rintro heq
    rw [heq] at hcheck
    exact hcheck rfl

@[simp] theorem silence_extend (op : Operation) (seen : List Var) :
    op.silence.extend seen = op.extend seen := by
  rw [extend, silence_defines?, extend]

@[simp] theorem silence_dependency? (op : Operation) :
    op.silence.dependency? = op.dependency? := by
  rw [dependency?, silence_opcode, silence_descr, dependency?]

@[simp] theorem silence_guardsFields (op : Operation) :
    op.silence.guardsFields = op.guardsFields := by
  rw [guardsFields, silence_opcode, guardsFields]

@[simp] theorem silence_failSlots (op : Operation) : op.silence.failSlots = op.failSlots := by
  rw [failSlots, silence_failArgs, failSlots]

@[simp] theorem silence_copies (op : Operation) (ids : List Nat) :
    op.silence.copies ids = op.copies ids := by
  by_cases h : op.opcode = .quasiimmutField
  · simp [copies, h]
  · rw [silence_of_ne h]

end Operation

theorem Forwarding.apply_silence (t : Forwarding) (op : Operation) :
    t.apply op.silence = (t.apply op).silence := by
  by_cases h : op.opcode = .quasiimmutField
  · have h' : (t.apply op).opcode = .quasiimmutField := h
    rw [Operation.silence, if_pos h, Operation.silence, if_pos h']
    rfl
  · have h' : (t.apply op).opcode ≠ .quasiimmutField := h
    rw [Operation.silence_of_ne h, Operation.silence_of_ne h']

section Walks

variable {s : PassSettings}

theorem fate_silence (guarded : Bool) (op : Operation) :
    fate s guarded op.silence = fate s guarded op := by
  by_cases h : op.opcode = .quasiimmutField
  · simp only [fate, Operation.silence_opcode, h]
  · rw [Operation.silence_of_ne h]

namespace Pass

theorem step_silence (op : Operation) : step s op.silence = step s op := by
  simp only [step, Forwarding.apply_silence, fate_silence, Operation.silence_dependency?,
    Operation.silence_guardsFields, Operation.silence_failSlots]

theorem run_silence (ops : List Operation) : run s (ops.map Operation.silence) = run s ops := by
  induction ops with
  | nil => rfl
  | cons op ops ih =>
    rw [List.map_cons, run, run, ih, step_silence, Operation.isFinal, Operation.silence_opcode,
      Operation.isFinal]
    split
    · rename_i hfinal
      rw [Operation.silence_of_ne]
      rintro heq
      rw [heq] at hfinal
      cases hfinal
    · rfl

theorem preamble_silence (inputs : List Var) (endArgs : List Arg) (ops : List Operation) :
    preamble s inputs endArgs (ops.map Operation.silence) = preamble s inputs endArgs ops := by
  rw [preamble, run_silence, preamble]

theorem peeled_silence (inputs : List Var) (closing : Operation) (ops : List Operation)
    (state : ExportedState) :
    peeled s inputs closing (ops.map Operation.silence) state =
      peeled s inputs closing ops state := by
  simp only [peeled, run_silence]

end Pass

end Walks

section Recording

variable {seen inputs : List Var} {ops : List Operation} {args : List Arg} {next : Nat}

theorem scopeAfter_silence (seen : List Var) (ops : List Operation) :
    scopeAfter seen (ops.map Operation.silence) = scopeAfter seen ops := by
  rw [scopeAfter, List.foldl_map, scopeAfter]
  simp only [Operation.silence_extend]

theorem copiesOf_silence (ops : List Operation) (i : Nat) :
    copiesOf (ops.map Operation.silence) i = copiesOf ops i := by
  rw [copiesOf, List.foldl_map, copiesOf]
  simp only [Operation.silence_copies]

theorem Scoped.silence (h : Scoped seen ops) : Scoped seen (ops.map Operation.silence) := by
  induction ops generalizing seen with
  | nil => trivial
  | cons op ops ih =>
    obtain ⟨huses, hresult, hlabel, hrest⟩ := h
    refine ⟨by rwa [Operation.silence_uses], fun r hr => hresult r (Operation.result_of_silence hr),
      by rwa [Operation.silence_opcode], ?_⟩
    rw [Operation.silence_extend]
    exact ih hrest

theorem resultIds_silence_sublist (ops : List Operation) :
    (resultIds (ops.map Operation.silence)).Sublist (resultIds ops) := by
  refine List.Sublist.map _ ?_
  induction ops with
  | nil => exact .slnil
  | cons op ops ih =>
    rw [List.map_cons]
    cases hr : op.silence.result with
    | none =>
      rw [List.filterMap_cons_none hr]
      exact ih.trans ((List.sublist_cons_self ..).filterMap _)
    | some r =>
      rw [List.filterMap_cons_some hr, List.filterMap_cons_some (Operation.result_of_silence hr)]
      exact ih.cons_cons r

theorem KeepsExits.silence (h : KeepsExits inputs ops args) :
    KeepsExits inputs (ops.map Operation.silence) args := by
  intro op hop r hr e he u hu hcopy v hv
  obtain ⟨o, ho, rfl⟩ := List.mem_map.mp hop
  rw [copiesOf_silence] at hcopy ⊢
  have hv : v ∈ o.failVars := by
    rwa [Operation.failVars, Operation.failSlots, Operation.silence_failArgs] at hv
  exact h o ho r (Operation.result_of_silence hr) e he u hu hcopy v hv

/--
What is recorded but for the results of checks: operations over variables in scope, with new
results and with exits where they belong.
-/
structure NoisilyRecorded (inputs : List Var) (ops : List Operation) (args : List Arg)
    (next : Nat) : Prop where
  inScope : Scoped inputs ops
  args_inScope : ∀ v ∈ args.filterMap Arg.var?, v ∈ scopeAfter inputs ops
  inputs_lt : ∀ v ∈ inputs, v.id < next
  resultIds_lt : ∀ i ∈ resultIds ops, i < next
  once : (resultIds ops).Nodup
  straight : ∀ op ∈ ops, op.isFinal = false
  exits : ∀ op ∈ ops, op.CarriesExits

theorem NoisilyRecorded.over (h : NoisilyRecorded inputs ops args next) :
    RecordedOver inputs (ops.map Operation.silence) args next where
  inScope := h.inScope.silence
  args_inScope := by
    rw [scopeAfter_silence]
    exact h.args_inScope
  inputs_lt := h.inputs_lt
  resultIds_lt i hi := h.resultIds_lt i ((resultIds_silence_sublist ops).subset hi)
  once := h.once.sublist (resultIds_silence_sublist ops)
  inner op hop := by
    obtain ⟨o, ho, rfl⟩ := List.mem_map.mp hop
    refine ⟨?_, ?_, fun hquasi => ?_⟩
    · rw [Operation.isFinal, Operation.silence_opcode]
      exact h.straight o ho
    · have hexits := h.exits o ho
      unfold Operation.CarriesExits Operation.failVars Operation.failSlots Operation.isGuard at *
      rwa [Operation.silence_opcode, Operation.silence_descr, Operation.silence_failArgs]
    · rw [Operation.silence_opcode] at hquasi
      rw [Operation.silence, if_pos hquasi]

theorem NoisilyRecorded.wellRecorded (h : NoisilyRecorded inputs ops args next)
    (hnodup : (inputs.map (·.id)).Nodup) :
    WellRecorded inputs (ops.map Operation.silence) args next where
  nodup := hnodup
  inScope := h.over.inScope
  straight := h.over.straight
  args_inScope := h.over.args_inScope
  inputs_lt := h.inputs_lt
  results_lt r hr := h.over.resultIds_lt r.id (List.mem_map_of_mem hr)
  once := h.over.once
  inner := h.over.inner

end Recording

end HotLoop
