import HotLoop.Proofs.Compile.Outcome

/-!
# What a pass leaves alone

However a pass ends, the links of the guards that there were are not touched by it, and of a guard
that the trace does not name nothing is. A label in the output of a pass has been recorded.
-/

namespace HotLoop

def NamesGuard (ops : List Operation) (g : Guard) : Prop :=
  ∃ op ∈ ops, ∃ g', op.guard? = some g' ∧ g'.id = g.id

/--
Every guard of the table `t` has the same bridges in `t'` and lies in the same unit. If the
operations do not name it, nothing about it has changed.
-/
structure GuardTable.Spares (ops : List Operation) (t t' : GuardTable) : Prop where
  length_le : t.records.length ≤ t'.records.length
  links : ∀ g : Guard, g.id < t.records.length →
    (t'.get g).bridges = (t.get g).bridges ∧ (t'.get g).loop = (t.get g).loop
  others : ∀ g : Guard, g.id < t.records.length → ¬ NamesGuard ops g → t'.get g = t.get g

namespace GuardTable

variable {ops : List Operation} {t t' t'' : GuardTable} {g : Guard}

namespace Spares

theorem refl (ops : List Operation) (t : GuardTable) : Spares ops t t :=
  ⟨Nat.le_refl _, fun _ _ => ⟨rfl, rfl⟩, fun _ _ _ => rfl⟩

theorem trans (h : Spares ops t t') (h' : Spares ops t' t'') : Spares ops t t'' where
  length_le := Nat.le_trans h.length_le h'.length_le
  links g hg := by
    have h₁ := h.links g hg
    have h₂ := h'.links g (Nat.lt_of_lt_of_le hg h.length_le)
    exact ⟨h₂.1.trans h₁.1, h₂.2.trans h₁.2⟩
  others g hg hno :=
    (h'.others g (Nat.lt_of_lt_of_le hg h.length_le) hno).trans (h.others g hg hno)

theorem mono {ops' : List Operation} (hops : ∀ g, NamesGuard ops g → NamesGuard ops' g)
    (h : Spares ops t t') : Spares ops' t t' where
  length_le := h.length_le
  links := h.links
  others g hg hno := h.others g hg fun hg' => hno (hops g hg')

theorem make (h : Spares ops t t') (opcode : OpCode) (kind : GuardKind) (data : ResumeData) :
    Spares ops t (t'.make opcode kind data).2 := by
  have hget (g : Guard) (hg : g.id < t.records.length) :
      (t'.make opcode kind data).2.get g = t'.get g := by
    simp only [GuardTable.make, get]
    rw [List.getElem?_append_left (Nat.lt_of_lt_of_le hg h.length_le)]
  refine ⟨?_, fun g hg => ?_, fun g hg hno => ?_⟩
  · simp only [GuardTable.make, List.length_append]
    exact Nat.le_trans h.length_le (Nat.le_add_right ..)
  · rw [hget g hg]
    exact h.links g hg
  · rw [hget g hg]
    exact h.others g hg hno

/-- A guard that is named, or has been made since, may change but for its links. -/
theorem modify (h : Spares ops t t') {f : GuardRecord → GuardRecord}
    (hg : NamesGuard ops g ∨ t.records.length ≤ g.id)
    (hf : ∀ r, (f r).bridges = r.bridges ∧ (f r).loop = r.loop) :
    Spares ops t (t'.modify g f) := by
  refine ⟨?_, fun g' hg' => ?_, fun g' hg' hno => ?_⟩
  · simp only [GuardTable.modify, List.length_modify]
    exact h.length_le
  · rw [get_modify]
    split
    · rename_i heq
      have hget : t'.get g' = t'.get g := by rw [get, heq.1, get]
      rw [(hf _).1, (hf _).2, ← hget]
      exact h.links g' hg'
    · exact h.links g' hg'
  · rw [get_modify, if_neg ?_]
    · exact h.others g' hg' hno
    · rintro ⟨heq, -⟩
      rcases hg with ⟨op, hop, g'', hdescr, hid⟩ | hle
      · exact hno ⟨op, hop, g'', hdescr, hid.trans heq.symm⟩
      · omega

theorem setData (h : Spares ops t t') (hg : NamesGuard ops g ∨ t.records.length ≤ g.id)
    (data : ResumeData) : Spares ops t (t'.setData g data) :=
  h.modify (f := fun r => { r with data }) hg fun _ => ⟨rfl, rfl⟩

theorem setCounting (h : Spares ops t t') (hg : NamesGuard ops g ∨ t.records.length ≤ g.id)
    (counting : Counting) : Spares ops t (t'.setCounting g counting) :=
  h.modify (f := fun r => { r with counting, busy := false }) hg fun _ => ⟨rfl, rfl⟩

theorem storeBoxes (h : Spares ops t t') (hg : NamesGuard ops g ∨ t.records.length ≤ g.id)
    (counter : Counter) (op : Operation) (boxes : List (Option Var)) :
    Spares ops t (t'.storeBoxes counter g op boxes).2.1 := by
  have hcount : Spares ops t (t'.setCount g boxes.length) := by
    unfold GuardTable.setCount
    exact h.modify hg fun _ => ⟨rfl, rfl⟩
  exact hcount.setCounting hg _

theorem countPerValue (h : Spares ops t t') (hg : NamesGuard ops g ∨ t.records.length ≤ g.id)
    {op : Operation} (hcount : t'.countPerValue g op = .ok t'') : Spares ops t t'' := by
  have hspec := t'.countPerValue_spec g op
  rw [hcount] at hspec
  cases hspec with
  | absent => exact h
  | slot => exact h.setCounting hg _

end Spares

end GuardTable

namespace Pass

variable {s : PassSettings} {p p' : Pass} {ops : List Operation} {op : Operation}

section Guards

def SparesGuards (ops : List Operation) (p p' : Pass) : Prop :=
  p.shared.guards.Spares ops p'.shared.guards

instance : Std.Refl (SparesGuards ops) := ⟨fun _ => .refl _ _⟩

instance : IsTrans Pass (SparesGuards ops) := ⟨fun _ _ _ h h' => h.trans h'⟩

/-- A computation that leaves the guards alone that are not named. -/
private abbrev Sparing {α : Type} (ops : List Operation) (x : PassM Pass α) (p : Pass) : Prop :=
  Goes (SparesGuards ops) (fun _ => False) x p

private theorem fresh_sparing (k : Kind) : Sparing ops (fresh k) p := by
  unfold fresh
  refine .get_bind ?_
  split
  · exact .bind (.set (.refl _ _)) fun _ _ _ => .pure _
  · exact .throw id

private theorem guardFor_sparing (op : Operation) : Sparing ops (guardFor s op) p := by
  unfold guardFor
  refine .get_bind ?_
  dsimp only
  split
  · split
    · rename_i g _ _
      exact .bind (.set ((GuardTable.Spares.refl _ _).make g.opcode g.kind _)) fun _ _ _ => .pure _
    · exact .pure _
  · split
    · rename_i hinvent
      obtain ⟨kind, -, hmake⟩ := GuardTable.invent_eq_ok hinvent
      refine .bind (.set ?_) fun _ _ _ => .pure _
      have hspares := (GuardTable.Spares.refl ops p.shared.guards).make op.opcode kind {}
      rwa [← hmake] at hspares
    · exact .throw id

private theorem guardFor_named {g : Guard} (hop : ∀ g, op.guard? = some g → NamesGuard ops g)
    (h : runFrom (guardFor s op) p = (.ok g, p')) :
    NamesGuard ops g ∨ p.shared.guards.records.length ≤ g.id := by
  exact (guardFor_eq_ok h).own.imp (hop g) id

private theorem finishGuard_sparing (hop : ∀ g, op.guard? = some g → NamesGuard ops g)
    (recorded : List (Option Var)) : Sparing ops (finishGuard s op recorded) p := by
  unfold finishGuard
  split
  · exact .pure _
  · refine .bind_from (guardFor_sparing op) fun g q hg hpq => ⟨?_, fun _ _ => id⟩
    have hnamed := guardFor_named hop hg
    have hboxes (data : ResumeData) (counter : Counter) (boxes : List (Option Var)) :
        p.shared.guards.Spares ops
          ((q.shared.guards.setData g data).storeBoxes counter g op boxes).2.1 :=
      GuardTable.Spares.storeBoxes (hpq.setData hnamed data) hnamed ..
    simp only [runFrom_bind, runFrom_get, runFrom_set]
    split
    · split
      · rename_i hcount
        simp only [runFrom_bind, runFrom_modify, runFrom_pure]
        exact (hboxes _ _ _).countPerValue hnamed hcount
      · simp only [runFrom_bind, runFrom_throw]
        exact hboxes _ _ _
    · exact hboxes _ _ _

/-- However a walk ends, it spares the guards that no guard operation of the trace names. -/
theorem run_sparing {trace : List Operation} (htrace : trace.filter Operation.isGuard ⊆ ops) :
    Goes (SparesGuards ops) (fun _ => False) (run s trace) p := by
  refine run_goes_of_step fun op hop q => step_goes (fun q q' h => ?_)
    (fun _ k _ _ => fresh_sparing k)
    (fun o _ _ ho recorded _ => finishGuard_sparing (fun g hg => ?_) recorded) fun _ _ => id
  · rw [SparesGuards, h]
    exact .refl _ _
  · obtain ⟨hguard, hown⟩ := ho g hg
    exact ⟨op, htrace (List.mem_filter.mpr ⟨hop, hguard⟩), g, hown, rfl⟩

end Guards

section Passes

variable {inputs : List Var}

theorem simple_sparing (s : PassSettings) (p : Pass) (inputs : List Var) (ops : List Operation) :
    Goes (SparesGuards ops) (fun _ => False) (simple s inputs ops) p :=
  .bind (run_sparing (List.filter_subset_self _)) fun _ _ _ => .get_bind (.pure _)

theorem preamble_sparing (s : PassSettings) (p : Pass) (inputs : List Var) (endArgs : List Arg)
    (ops : List Operation) :
    Goes (SparesGuards ops) (fun _ => False) (preamble s inputs endArgs ops) p :=
  .bind (run_sparing (List.filter_subset_self _)) fun _ _ _ => .get_bind (.pure _)

theorem bridge_sparing (s : PassSettings) (p : Pass) (registry : Registry) (inputs : List Var)
    (ops : List Operation) (anyEntry : Bool) :
    Goes (SparesGuards ops) (fun _ => False) (bridge s registry inputs ops anyEntry) p := by
  refine .bind (run_sparing (List.filter_subset_self _)) fun last q _ => ?_
  split
  · split
    · refine .get_bind ?_
      dsimp only
      split
      · exact .pure _
      · exact .pure _
    · exact .throw id
  · exact .throw id

theorem peeled_sparing (s : PassSettings) (p : Pass) (inputs : List Var) (closing : Operation)
    (ops : List Operation) (state : ExportedState) :
    Goes (SparesGuards ops) (fun _ => False) (peeled s inputs closing ops state) p := by
  unfold peeled
  split
  · split
    · exact .throw_bind id
    · refine .bind (extendHeaders_goes_of_fresh (fun k _ => fresh_sparing k) ..) fun header q _ => ?_
      refine .bind (.modify (.refl _ _)) fun _ _ _ =>
        .bind (run_sparing (List.filter_subset_self _)) fun _ r _ => ?_
      refine .get_bind ?_
      dsimp only
      split
      · exact .throw_bind id
      · exact .bind (.set (.refl _ _)) fun _ _ _ => .pure _
  · exact .throw id

end Passes

end Pass

section Labels

/-- Every label of `out` is one of `ops`, or its entry point is not among the first `n`. -/
def LabelsFrom (n : Nat) (ops out : List Operation) : Prop :=
  ∀ op ∈ out, ∀ e, op.labels? = some e → n ≤ e.id ∨ ∃ o ∈ ops, o.labels? = some e

variable {s : PassSettings} {p p' : Pass} {ops out out' : List Operation} {inputs : List Var}
  {shared : OptState} {result : Optimized} {n : Nat}

namespace LabelsFrom


theorem append (h : LabelsFrom n ops out) (h' : LabelsFrom n ops out') :
    LabelsFrom n ops (out ++ out') := by
  intro op hop
  rcases List.mem_append.mp hop with hop | hop
  · exact h op hop
  · exact h' op hop

theorem of_append_left (h : LabelsFrom n ops (out ++ out')) : LabelsFrom n ops out :=
  fun op hop => h op (List.mem_append_left _ hop)

theorem cons {op : Operation} (h : LabelsFrom n ops [op]) (h' : LabelsFrom n ops out) :
    LabelsFrom n ops (op :: out) := h.append h'

theorem mono {ops' : List Operation} (hops : ops ⊆ ops') (h : LabelsFrom n ops out) :
    LabelsFrom n ops' out := by
  intro op hop e he
  rcases h op hop e he with hn | ⟨o, ho, hlabel⟩
  · exact .inl hn
  · exact .inr ⟨o, hops ho, hlabel⟩

theorem label (ops : List Operation) (vars : List Var) {e : EntryPoint} (he : n ≤ e.id) :
    LabelsFrom n ops [.label vars (.target e)] := by
  intro op hop e' he'
  rw [List.mem_singleton.mp hop] at he'
  cases he'
  exact .inl he

theorem ofUnlabelled (ops : List Operation) (h : Unlabelled out) : LabelsFrom n ops out :=
  fun _ hop _ he => absurd he (h.not_labels hop)

theorem singleton {op o : Operation} (ho : o ∈ ops)
    (h : op.opcode = o.opcode ∧ op.descr = o.descr ∨ op.opcode ≠ .label) :
    LabelsFrom n ops [op] := by
  intro op' hop' e he
  rw [List.mem_singleton.mp hop'] at he
  rcases h with ⟨hopcode, hdescr⟩ | hne
  · exact .inr ⟨o, ho, by rw [← he, Operation.labels?, Operation.labels?, hopcode, hdescr]⟩
  · rw [Operation.labels?_of_ne hne] at he
    cases he

end LabelsFrom

theorem Pass.Stepped.labelsFrom {op : Operation} (h : Pass.Stepped s p p' op) (hop : op ∈ ops)
    (hout : LabelsFrom n ops p.out) : LabelsFrom n ops p'.out := by
  cases h with
  | drop _ heq =>
    obtain ⟨deps, rfl⟩ := heq
    exact hout
  | replace _ _ _ heq =>
    obtain ⟨deps, rfl⟩ := heq
    exact hout
  | keep op' e t hfate hkeeps =>
    obtain ⟨deps, hkeeps⟩ := hkeeps
    rw [hkeeps.out]
    refine hout.append (.singleton hop ?_)
    rcases keep_cases hfate with ⟨rfl, -, -⟩ | ⟨-, rfl⟩
    · -- a guard gets a descriptor, anything else keeps its own
      cases hguard : (p.forwarding.apply op).isGuard with
      | true =>
        right
        rw [hkeeps.opcode]
        intro heq
        rw [Operation.isGuard, heq] at hguard
        cases hguard
      | false =>
        left
        rw [hkeeps.same hguard]
        exact ⟨rfl, rfl⟩
    · right
      rw [hkeeps.opcode]
      decide

theorem labelsFrom_of_run {trace : List Operation} {last : Option Operation}
    (hrun : runFrom (Pass.run s trace) p = (.ok last, p')) (htrace : trace ⊆ ops)
    (hout : LabelsFrom n ops p.out) : LabelsFrom n ops (p'.out ++ last.toList) := by
  induction trace generalizing p with
  | nil =>
    simp only [Pass.run, runFrom_pure, Prod.mk.injEq, Except.ok.injEq] at hrun
    obtain ⟨rfl, rfl⟩ := hrun
    exact hout.append (.ofUnlabelled ops (by simp [Unlabelled]))
  | cons op trace ih =>
    obtain ⟨hop, htrace⟩ := List.cons_subset.mp htrace
    cases hfinal : op.isFinal with
    | true =>
      obtain ⟨rfl, rfl⟩ := Pass.run_cons_eq_ok_of_isFinal hfinal hrun
      exact hout.append (.singleton hop (.inl ⟨rfl, rfl⟩))
    | false =>
      obtain ⟨q, hstepped, hrest⟩ := Pass.run_cons_eq_ok hfinal hrun
      exact ih hrest htrace (hstepped.labelsFrom hop hout)

private theorem labelsFrom_ofShared (shared : OptState) :
    LabelsFrom n ops (Pass.ofShared shared).out := .ofUnlabelled ops (unlabelled_ofShared shared)

theorem labelsFrom_of_simple
    (h : runFrom (Pass.simple s inputs ops) (.ofShared shared) = (.ok result, p')) :
    LabelsFrom n ops result.operations := by
  simp only [Pass.simple, runFrom_bind_eq_ok, runFrom_get, runFrom_pure, Prod.mk.injEq,
    Except.ok.injEq] at h
  obtain ⟨last, q, hrun, _, _, ⟨rfl, rfl⟩, rfl, rfl⟩ := h
  exact labelsFrom_of_run hrun (List.Subset.refl _) (labelsFrom_ofShared shared)

theorem labelsFrom_of_preamble {endArgs : List Arg} {state : ExportedState}
    (h : runFrom (Pass.preamble s inputs endArgs ops) (.ofShared shared) = (.ok (state, out), p')) :
    LabelsFrom n ops out := by
  obtain ⟨last, hrun, -, rfl⟩ := preamble_eq_ok h
  exact (labelsFrom_of_run hrun (List.Subset.refl _) (labelsFrom_ofShared shared)).of_append_left

theorem labelsFrom_of_bridge {registry : Registry} {anyEntry : Bool}
    (h : runFrom (Pass.bridge s registry inputs ops anyEntry) (.ofShared shared) =
      (.ok result, p')) : LabelsFrom n ops result.operations := by
  obtain ⟨jump, hrun, hop, hto⟩ := bridge_eq_ok h
  have hout : LabelsFrom n ops p'.out :=
    (labelsFrom_of_run hrun (List.Subset.refl _) (labelsFrom_ofShared shared)).of_append_left
  cases hto with
  | entered unit entry =>
    refine hout.append (.ofUnlabelled ops fun o ho => ?_)
    rw [List.mem_singleton.mp ho]
    simp [hop]
  | waiting => exact hout

theorem PeeledInto.labelsFrom {closing : Operation} {endArgs : List Arg} {header : LoopHeader}
    {q r : Pass}
    (h : PeeledInto s (.ofShared shared) p' inputs closing ops endArgs result header q r)
    (hclosing : closing.opcode ≠ .label) : LabelsFrom n ops result.operations := by
  obtain ⟨last, hrun⟩ := h.run
  have hout : LabelsFrom n ops (r.out ++ last.toList) :=
    labelsFrom_of_run hrun (List.Subset.refl _) (h.start.2.1 ▸ labelsFrom_ofShared shared)
  rw [h.operations]
  refine hout.of_append_left.append (.ofUnlabelled ops fun o ho => ?_)
  rw [List.mem_singleton.mp ho]
  exact hclosing

end Labels

end HotLoop
