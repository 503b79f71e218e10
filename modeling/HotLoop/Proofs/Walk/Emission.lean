import HotLoop.Proofs.Compile.Spared
import HotLoop.Proofs.Walk.Simple

/-!
# Where the output of a walk comes from

Every operation in the output of a walk has been emitted for one of the recorded operations. The
record of an emitted guard is written then, and if no two recorded guards share one it is still the
same when the walk is over.
-/

namespace HotLoop

namespace Pass

variable {s : PassSettings} {p p' q : Pass} {op r e : Operation} {ops before pre post : List Operation}

/--
From `p` the walk puts out `pre` for the operations `before`, and then `e` for the operation `r`.
-/
def EmitsFor (s : PassSettings) (p : Pass) (before : List Operation) (r : Operation)
    (pre : List Operation) (e : Operation) : Prop :=
  ∃ q q', runFrom (run s before) p = (.ok none, q) ∧ q.out = p.out ++ pre ∧
    runFrom (step s r) q = (.ok (), q') ∧ q'.out = q.out ++ [e]

theorem Stepped.out_cases (h : Stepped s p p' op) :
    p'.out = p.out ∨ ∃ e, p'.out = p.out ++ [e] := by
  cases h with
  | drop _ heq =>
    obtain ⟨deps, rfl⟩ := heq
    exact .inl rfl
  | replace _ _ _ heq =>
    obtain ⟨deps, rfl⟩ := heq
    exact .inl rfl
  | keep op' e t _ hkeeps =>
    obtain ⟨deps, hkeeps⟩ := hkeeps
    exact .inr ⟨e, hkeeps.out⟩

theorem Stepped.kept (h : Stepped s p p' op) (hout : p'.out = p.out ++ [e]) :
    ∃ op' t deps, fate s p.guarded (p.forwarding.apply op) = .ok (.keep op') ∧
      Keeps s { p with deps, guarded := p.guarded || op.guardsFields } p' op' op.failSlots t e := by
  cases h with
  | drop _ heq =>
    obtain ⟨deps, rfl⟩ := heq
    simp at hout
  | replace _ _ _ heq =>
    obtain ⟨deps, rfl⟩ := heq
    simp at hout
  | keep op' e' t hfate hkeeps =>
    obtain ⟨deps, hkeeps⟩ := hkeeps
    have he : e' = e := by simpa [hkeeps.out] using hout
    exact ⟨op', t, deps, hfate, he ▸ hkeeps⟩

theorem out_prefix_of_run {last : Option Operation} (hrun : runFrom (run s ops) p = (.ok last, p')) :
    p.out <+: p'.out := by
  induction ops generalizing p with
  | nil =>
    cases hrun
    exact List.prefix_rfl
  | cons op ops ih =>
    cases hop : op.isFinal with
    | true =>
      obtain ⟨-, rfl⟩ := run_cons_eq_ok_of_isFinal hop hrun
      exact List.prefix_rfl
    | false =>
      obtain ⟨q, hstepped, hrest⟩ := run_cons_eq_ok hop hrun
      rcases hstepped.out_cases with hout | ⟨e, hout⟩
      · exact hout ▸ ih hrest
      · exact (List.prefix_append _ _).trans (hout ▸ ih hrest)

/--
An entry of the output has been emitted for an operation that does not end the trace; `q` and `q'`
are the states of the walk in front of that operation and behind it.
-/
theorem exists_step_of_run {last : Option Operation} (hrun : runFrom (run s ops) p = (.ok last, p'))
    (hout : p'.out = p.out ++ (pre ++ e :: post)) :
    ∃ before r after q q', ops = before ++ r :: after ∧ (∀ o ∈ before, o.isFinal = false) ∧
      r.isFinal = false ∧ runFrom (run s before) p = (.ok none, q) ∧ q.out = p.out ++ pre ∧
      runFrom (step s r) q = (.ok (), q') ∧ q'.out = q.out ++ [e] ∧
      runFrom (run s after) q' = (.ok last, p') := by
  induction ops generalizing p pre with
  | nil =>
    cases hrun
    simp at hout
  | cons op ops ih =>
    cases hop : op.isFinal with
    | true =>
      obtain ⟨-, rfl⟩ := run_cons_eq_ok_of_isFinal hop hrun
      simp at hout
    | false =>
      obtain ⟨q, hstep, hrest⟩ := (run_cons_eq_ok_iff hop).mp hrun
      -- the entry has been emitted by this step, or by the walk behind it
      have hlater (pre' : List Operation) (hpre : p.out ++ pre = q.out ++ pre') :
          ∃ before r after q q', op :: ops = before ++ r :: after ∧
            (∀ o ∈ before, o.isFinal = false) ∧ r.isFinal = false ∧
            runFrom (run s before) p = (.ok none, q) ∧ q.out = p.out ++ pre ∧
            runFrom (step s r) q = (.ok (), q') ∧ q'.out = q.out ++ [e] ∧
            runFrom (run s after) q' = (.ok last, p') := by
        rw [← List.append_assoc, hpre, List.append_assoc] at hout
        obtain ⟨before, r, after, u, u', rfl, hbefore, hr, hrun, hu, hstep', hu', hafter⟩ :=
          ih hrest hout
        refine ⟨op :: before, r, after, u, u', rfl, ?_, hr,
          (run_cons_eq_ok_iff hop).mpr ⟨q, hstep, hrun⟩, by rw [hu, hpre], hstep', hu', hafter⟩
        exact List.forall_mem_cons.mpr ⟨hop, hbefore⟩
      rcases (step_eq_ok hstep).out_cases with hq | ⟨o, hq⟩
      · exact hlater pre (by rw [hq])
      · obtain ⟨more, hmore⟩ := out_prefix_of_run hrest
        rw [← hmore, hq, List.append_assoc, List.append_cancel_left_eq] at hout
        cases pre with
        | nil =>
          obtain ⟨rfl, -⟩ := List.cons.inj hout
          exact ⟨[], op, ops, p, q, rfl, by simp, hop, rfl, by simp, hstep, hq, hrest⟩
        | cons o' pre' =>
          obtain ⟨rfl, -⟩ := List.cons.inj hout
          exact hlater pre' (by rw [hq, List.append_assoc]; rfl)

end Pass

section Guards

variable {s : PassSettings} {p p' q q' : Pass} {r e : Operation} {ops before after : List Operation}
  {g : Guard}

/-- The recorded guards that have a descriptor have one of their own, which is in the table. -/
structure OwnGuards (t : GuardTable) (ops : List Operation) : Prop where
  nodup : ((guardsIn ops).map (·.id)).Nodup
  lt : ∀ g ∈ guardsIn ops, g.id < t.records.length

theorem ownGuards_iff {t : GuardTable} : OwnGuards t ops ↔
    ((guardsIn ops).map (·.id)).Nodup ∧ ∀ g ∈ guardsIn ops, g.id < t.records.length :=
  ⟨fun ⟨h, h'⟩ => ⟨h, h'⟩, fun ⟨h, h'⟩ => ⟨h, h'⟩⟩

instance (t : GuardTable) (ops : List Operation) : Decidable (OwnGuards t ops) :=
  decidable_of_iff' _ ownGuards_iff

theorem mem_guardsIn {g : Guard} :
    g ∈ guardsIn ops ↔ ∃ op ∈ ops, op.isGuard = true ∧ op.guard? = some g := by
  simp [guardsIn, and_assoc]

theorem namesGuard_filter_iff :
    NamesGuard (ops.filter Operation.isGuard) g ↔ ∃ g' ∈ guardsIn ops, g'.id = g.id := by
  simp only [NamesGuard, mem_guardsIn, List.mem_filter]
  grind

theorem OwnGuards.not_names {t : GuardTable} (h : OwnGuards t (before ++ r :: after))
    (hr : r.isGuard = true) (hg : r.guard? = some g) :
    ¬ NamesGuard (after.filter Operation.isGuard) g := by
  intro hnames
  obtain ⟨g', hg', hid⟩ := namesGuard_filter_iff.mp hnames
  have hnodup := h.nodup
  simp only [guardsIn, List.filter_append, List.filter_cons_of_pos hr, List.filterMap_append,
    List.filterMap_cons_some hg, List.map_append, List.map_cons] at hnodup
  exact (List.nodup_cons.mp (List.nodup_append.mp hnodup).2.1).1
    (hid ▸ List.mem_map_of_mem hg')

namespace Pass

/--
What has been put on file for an emitted guard is on file when the walk is over, as long as no other
recorded guard has the same record.
-/
theorem files_of_run {last : Option Operation} (hown : OwnGuards p.shared.guards ops)
    (hplain : s.renames = false) (hops : ops = before ++ r :: after)
    (hbefore : runFrom (run s before) p = (.ok none, q)) (hstep : runFrom (step s r) q = (.ok (), q'))
    (hout : q'.out = q.out ++ [e]) (hafter : runFrom (run s after) q' = (.ok last, p'))
    (hguard : e.isGuard = true) (hdescr : e.descr = some (.guard g)) :
    p'.shared.guards.Files g e (NumberedSlots.ofSlots q.forwarding r.failSlots) := by
  subst hops
  obtain ⟨op', t, deps, hfate, hkeeps⟩ := (step_eq_ok hstep).kept hout
  have ht : t = q.forwarding := by
    rcases hkeeps.renamed with ⟨hren, -⟩ | ⟨-, -, ht, -⟩
    · rw [hplain] at hren
      cases hren
    · exact ht
  have hop' : op'.isGuard = true := by
    rw [Operation.isGuard, ← hkeeps.opcode]
    exact hguard
  have hrecorded (g' : Guard) (hg' : op'.guard? = some g') :
      r.isGuard = true ∧ r.guard? = some g' := by
    rcases keep_cases hfate with ⟨rfl, -, -⟩ | ⟨-, rfl⟩
    · exact ⟨hop', hg'⟩
    · cases hg'
  have hgrown : p.shared.guards.records.length ≤ q.shared.guards.records.length := by
    have hspares := (run_sparing (s := s) (p := p) (List.filter_subset_self before)).1
    rw [hbefore] at hspares
    exact hspares.length_le
  have hlt (g' : Guard) (hg' : g' ∈ guardsIn (before ++ r :: after)) :
      g'.id < q.shared.guards.records.length := Nat.lt_of_lt_of_le (hown.lt g' hg') hgrown
  obtain ⟨howned, hfiles⟩ := hkeeps.filed hop'
    (fun g' hg' => hlt g' (mem_guardsIn.mpr ⟨r, by simp, hrecorded g' hg'⟩)) g hdescr
  have hspares := (run_sparing (s := s) (p := q') (List.Subset.refl (after.filter _))).1
  rw [hafter] at hspares
  -- no guard behind it has this record: it is its own, or newer than all that have been recorded
  have hno : ¬ NamesGuard (after.filter Operation.isGuard) g := by
    rcases howned with hg' | hle
    · obtain ⟨hr, hg'⟩ := hrecorded g hg'
      exact hown.not_names hr hg'
    · intro hnames
      obtain ⟨g', hg', hid⟩ := namesGuard_filter_iff.mp hnames
      obtain ⟨o, ho, ho'⟩ := mem_guardsIn.mp hg'
      have hlt := hlt g' (mem_guardsIn.mpr ⟨o, by simp [ho], ho'⟩)
      have hle : q.shared.guards.records.length ≤ g.id := hle
      omega
  rw [ht] at hfiles
  exact hfiles.of_get_eq hspares.length_le (hspares.others g hfiles.lt hno)

end Pass

end Guards

end HotLoop
