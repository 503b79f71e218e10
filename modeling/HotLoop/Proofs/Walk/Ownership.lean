import HotLoop.Proofs.Walk.Request

/-!
# Who owns a guard

A guard behind a call that may force the frame is made for a driver, and no other driver may handle
its failures. Walks keep to that: the guards that they put out are those of the operations, copies
of them, or new ones of the driver for which the pass is run.
-/

namespace HotLoop

def Operation.OwnedBy (driver : Nat) (op : Operation) : Prop :=
  ∀ g owner, op.guard? = some g → g.kind = .forced owner → owner = driver

theorem GuardKind.eq_of_ofOpCode {driver owner : Nat} {op : OpCode}
    (h : GuardKind.ofOpCode driver op = .ok (.forced owner)) : owner = driver := by
  unfold GuardKind.ofOpCode at h
  split at h
  · cases h
    rfl
  · cases h
    rfl
  · cases h
  · cases h
  · split at h <;> cases h

namespace Operation

variable {driver : Nat} {op : Operation}

theorem ownedBy_of_guard?_eq_none (h : op.guard? = none) : op.OwnedBy driver := by
  intro g owner hg
  rw [h] at hg
  cases hg

theorem ownedBy_label (vars : List Var) (e : EntryPoint) :
    (label vars (.target e)).OwnedBy driver :=
  ownedBy_of_guard?_eq_none rfl

/-- A guard that a recorder or a pass makes for an operation. -/
theorem ownedBy_of_ofOpCode {g : Guard} {opcode : OpCode} (hdescr : op.descr = some (.guard g))
    (h : GuardKind.ofOpCode driver opcode = .ok g.kind) : op.OwnedBy driver := by
  intro g' owner hg' howner
  have hguard : op.guard? = some g := by
    rw [guard?, hdescr]
    rfl
  cases hguard.symm.trans hg'
  exact GuardKind.eq_of_ofOpCode (howner ▸ h)

end Operation

section Walks

variable {s : PassSettings} {p p' : Pass} {op e : Operation} {ops : List Operation}
  {recorded : List (Option Var)} {t : Forwarding}

private theorem Pass.Finishes.ownedBy {op : Operation} (h : Pass.Finishes s t recorded op e)
    (hop : op.OwnedBy s.driver) : e.OwnedBy s.driver := by
  by_cases hfinal : ∃ d, op.descr = some (.final d)
  · obtain ⟨d, hd⟩ := hfinal
    exact h.final d hd ▸ hop
  · obtain ⟨g, hg, hnamed⟩ := h.descr fun d hd => hfinal ⟨d, hd⟩
    cases hguard : op.guard? with
    | none => exact Operation.ownedBy_of_ofOpCode hg (h.invented hguard g hg)
    | some g' =>
      -- a copy is made for the same driver
      intro g'' owner hg'' howner
      have heq : e.guard? = some g := by
        rw [Operation.guard?, hg]
        rfl
      cases heq.symm.trans hg''
      exact hop g' owner hguard ((hnamed g' hguard).2.1 ▸ howner)

private theorem Pass.Keeps.ownedBy (h : Pass.Keeps s p p' op recorded t e)
    (hop : op.OwnedBy s.driver) : e.OwnedBy s.driver := by
  cases hguard : op.isGuard with
  | true => exact (h.finishes hguard).ownedBy hop
  | false =>
    rw [h.same hguard]
    exact hop

theorem Pass.Stepped.ownedBy (h : Pass.Stepped s p p' op) (hop : op.OwnedBy s.driver)
    (hp : ∀ o ∈ p.out, o.OwnedBy s.driver) : ∀ o ∈ p'.out, o.OwnedBy s.driver := by
  cases h with
  | drop _ heq =>
    obtain ⟨deps, rfl⟩ := heq
    exact hp
  | replace r a _ heq =>
    obtain ⟨deps, rfl⟩ := heq
    exact hp
  | keep op' e t hfate hkeeps =>
    obtain ⟨deps, hkeeps⟩ := hkeeps
    have hop' : op'.OwnedBy s.driver := by
      rcases keep_cases hfate with ⟨rfl, -, -⟩ | ⟨-, rfl⟩
      · exact hop
      · exact Operation.ownedBy_of_guard?_eq_none rfl
    rw [hkeeps.out]
    intro o ho
    rcases List.mem_append.mp ho with ho | ho
    · exact hp o ho
    · rw [List.mem_singleton.mp ho]
      exact hkeeps.ownedBy hop'

theorem ownedBy_of_run {last : Option Operation}
    (hrun : runFrom (Pass.run s ops) p = (.ok last, p')) (hops : ∀ op ∈ ops, op.OwnedBy s.driver)
    (hp : ∀ o ∈ p.out, o.OwnedBy s.driver) : ∀ o ∈ p'.out, o.OwnedBy s.driver := by
  induction ops generalizing p with
  | nil =>
    cases hrun
    exact hp
  | cons op ops ih =>
    cases hfinal : op.isFinal with
    | true =>
      obtain ⟨-, rfl⟩ := Pass.run_cons_eq_ok_of_isFinal hfinal hrun
      exact hp
    | false =>
      obtain ⟨q, hstep, hrest⟩ := Pass.run_cons_eq_ok hfinal hrun
      exact ih hrest (fun o ho => hops o (List.mem_cons_of_mem _ ho))
        (hstep.ownedBy (hops op (List.mem_cons_self ..)) hp)

end Walks

/-- Recorded operations in front of an end, with guards of a driver. -/
structure OwnedLine (driver : Nat) (ops : List Operation) : Prop where
  inner : ∀ op ∈ ops, op.isFinal = false
  owned : ∀ op ∈ ops, op.OwnedBy driver

section Code

variable {driver : Nat} {ops before : List Operation} {shared : OptState}

private theorem ownedBy_ofShared : ∀ o ∈ (Pass.ofShared shared).out, o.OwnedBy driver := by
  simp [Pass.ofShared]

theorem OwnedLine.run {s : PassSettings} {p : Pass} {last : Option Operation}
    (h : OwnedLine s.driver ops)
    (hrun : runFrom (Pass.run s ops) (.ofShared shared) = (.ok last, p)) :
    ∀ op ∈ p.out, op.OwnedBy s.driver :=
  ownedBy_of_run hrun h.owned ownedBy_ofShared

theorem ownedBy_append {rest : List Operation} (ops : List Operation)
    (h : ∀ op ∈ ops, op.OwnedBy driver) (hrest : ∀ op ∈ rest, op.guard? = none) :
    ∀ op ∈ ops ++ rest, op.OwnedBy driver := by
  intro op hop
  rcases List.mem_append.mp hop with hop | hop
  · exact h op hop
  · exact Operation.ownedBy_of_guard?_eq_none (hrest op hop)

private theorem ExtendsHeader.guard?_eq {inputs header vs : List Var} {i n n' : Nat} {l : List Arg}
    {cs : List Operation} (h : ExtendsHeader inputs header i n l vs cs n') :
    ∀ op ∈ cs, op.guard? = none := by
  induction h with
  | nil => simp
  | reuse _ _ ih => exact ih
  | copy _ _ ih => exact List.forall_mem_cons.mpr ⟨rfl, ih⟩

/-- The second walk over a loop, behind its header and behind whatever stands in front of that. -/
theorem ownedBy_of_peeled {s : PassSettings} {p : Pass} {inputs : List Var} {closing : Operation}
    {state : ExportedState} {result : Optimized} {header : LoopHeader}
    (hbefore : ∀ op ∈ before, op.OwnedBy s.driver) (hops : ∀ op ∈ ops, op.OwnedBy s.driver)
    (hpeeled : runFrom (Pass.peeled s inputs closing ops state) (.ofShared shared) =
      (.ok result, p)) (hheader : result.header = some header) :
    ∀ op ∈ before ++ header.copies ++ [header.label] ++ result.operations,
      op.OwnedBy s.driver := by
  obtain ⟨header', q, r, hinto⟩ := peeled_eq_ok hpeeled
  cases hheader.symm.trans hinto.isHeader
  obtain ⟨last, hrun⟩ := hinto.run
  have hq : ∀ o ∈ q.out, o.OwnedBy s.driver := by
    rw [hinto.start.2.1]
    exact ownedBy_ofShared
  have hout : ∀ o ∈ r.out, o.OwnedBy s.driver :=
    ownedBy_of_run (s := { s with renames := true }) hrun hops hq
  have hfront : ∀ op ∈ before ++ header.copies ++ [header.label], op.OwnedBy s.driver :=
    ownedBy_append _ (ownedBy_append _ hbefore hinto.built.guard?_eq)
      (List.forall_mem_singleton.mpr rfl)
  rw [hinto.operations, ← List.append_assoc]
  refine ownedBy_append _ (fun op hop => ?_) (List.forall_mem_singleton.mpr rfl)
  exact (List.mem_append.mp hop).elim (hfront op) (hout op)

end Code

end HotLoop
