import HotLoop.Proofs.Compile.Sending
import HotLoop.Proofs.Kinds.Walk

/-!
# Code that keeps to its entry points

A label has arguments of the kinds that its entry point takes, and so has a jump into other code,
whatever has been recorded: labels are made with their entry points, and a bridge looks for an entry
point that fits. A jump back into its own code keeps to the entry point if kinds have been kept
while the loop was recorded.
-/

namespace HotLoop

/-- The arguments have the kinds that the entry point takes which the operation names, if any. -/
def Operation.FitsEntry (op : Operation) : Prop :=
  ∀ e, op.descr = some (.target e) → op.args.map Arg.kind = e.argKinds

/-- No label of the code is for the entry point that the operation names. -/
def LeadsOut (ops : List Operation) (op : Operation) : Prop :=
  ∀ l ∈ ops, l.opcode = .label → l.descr ≠ op.descr

/--
Labels keep to their entry points. Jumps do so if they lead out of the code; if `typed` holds, then
all of them do.
-/
def EntriesFit (typed : Prop) (ops : List Operation) : Prop :=
  ∀ op ∈ ops, op.opcode = .label ∨ op.opcode = .jump ∧ (typed ∨ LeadsOut ops op) → op.FitsEntry

/-- What is wanted of submitted code where entry points are concerned. -/
def fittingCode (typed : Prop) : CodeSpec where
  loop _ ops := EntriesFit typed ops
  bridge _ ops := EntriesFit typed ops
  blameless := False

structure Straight (ops : List Operation) : Prop where
  inner : ∀ op ∈ ops, op.isFinal = false
  unlabelled : Unlabelled ops

theorem Straight.run {s : PassSettings} {p p' : Pass} {ops : List Operation}
    {last : Option Operation} (h : Straight ops) (hrun : runFrom (Pass.run s ops) p = (.ok last, p'))
    (hp : Straight p.out) : Straight p'.out :=
  ⟨not_isFinal_of_run hrun hp.inner,
    (unlabelled_of_run hrun h.unlabelled hp.unlabelled).of_append_left⟩

theorem straight_ofShared (shared : OptState) : Straight (Pass.ofShared shared).out :=
  ⟨by simp [Pass.ofShared], unlabelled_ofShared shared⟩

theorem Straight.no_entry {ops : List Operation} (h : Straight ops) {op : Operation} (hop : op ∈ ops)
    {P : Prop} : ¬ (op.opcode = .label ∨ op.opcode = .jump ∧ P) := by
  rintro (hlabel | ⟨hjump, -⟩)
  · exact h.unlabelled op hop hlabel
  · have hfinal := h.inner op hop
    rw [Operation.isFinal, hjump] at hfinal
    cases hfinal

theorem fitsEntry_label {vars : List Var} {entry : EntryPoint}
    (h : entry.argKinds = vars.map (·.kind)) : (Operation.label vars (.target entry)).FitsEntry := by
  rintro e ⟨⟩
  rw [h, Operation.label, List.map_map]
  rfl

section Sendable

variable {typed : Prop} {ops body : List Operation}

/-- Code that goes straight on to a final operation, which names an entry point that it fits. -/
theorem entriesFit_append {last : Operation} (h : Straight ops) (hlabel : last.opcode ≠ .label)
    (hlast : last.opcode = .jump → last.FitsEntry) : EntriesFit typed (ops ++ [last]) := by
  intro op hop hentry
  rcases List.mem_append.mp hop with hop | hop
  · exact absurd hentry (h.no_entry hop)
  · rw [List.mem_singleton.mp hop] at hentry ⊢
    rcases hentry with hyes | ⟨hjump, -⟩
    · exact absurd hyes hlabel
    · exact hlast hjump

/-- A loop behind its label, with whatever stands in front. -/
theorem entriesFit_loop (before : List Operation) {vars : List Var} {entry : EntryPoint}
    {jump : Operation} (hbefore : ∀ op ∈ before,
      op.opcode = .label ∧ op.FitsEntry ∨ op.isFinal = false ∧ op.opcode ≠ .label)
    (hentry : entry.argKinds = vars.map (·.kind)) (hbody : Straight body)
    (hjump : jump.opcode = .jump) (hdescr : jump.descr = some (.target entry))
    (hfits : typed → jump.args.map Arg.kind = entry.argKinds) :
    EntriesFit typed (before ++ .label vars (.target entry) :: (body ++ [jump])) := by
  intro op hop hwanted
  simp only [List.mem_append, List.mem_cons, List.not_mem_nil, or_false] at hop
  obtain hop | rfl | hop | rfl := hop
  · rcases hbefore op hop with ⟨-, hfits⟩ | ⟨hfinal, hlabel⟩
    · exact hfits
    · have hstraight : Straight [op] :=
        ⟨fun o ho => by rwa [List.mem_singleton.mp ho], fun o ho => by
          rwa [List.mem_singleton.mp ho]⟩
      exact absurd hwanted (hstraight.no_entry (List.mem_singleton.mpr rfl))
  · exact fitsEntry_label hentry
  · exact absurd hwanted (hbody.no_entry hop)
  · intro e he
    cases hdescr.symm.trans he
    rcases hwanted with hlabel | ⟨-, htyped | hout⟩
    · rw [hjump] at hlabel
      cases hlabel
    · exact hfits htyped
    · exact absurd hdescr.symm (hout (.label vars (.target entry)) (by simp) rfl)

theorem EntriesFit.sendable {inputs : List Var} {values : ValueIds} {driver : Driver}
    (h : EntriesFit typed ops) (hdriver : driver.virtualizable = none) :
    Sendable (fittingCode typed) driver inputs ops values where
  asLoop t t' ht address hload := by
    have hsame : t' = t := by
      rw [Trace.loadVirtualizable, hdriver] at hload
      cases hload
      rfl
    rw [hsame, ht.operations]
    exact ⟨h, False.elim⟩
  asBridge := ⟨h, False.elim⟩

end Sendable

end HotLoop
