import HotLoop.Proofs.Consistency.Walk
import HotLoop.Proofs.Walk.Unrolled

/-!
# Consistent code out of walks

Every trace that is submitted is put together from the output of walks. One that has been walked
once is consistent behind its inputs. Behind a preamble the copies for the header are consistent,
the header hides all but its own variables, and the second walk goes on from these.
-/

namespace HotLoop

variable {s : PassSettings} {p p' q : Pass} {ops : List Operation} {args : List Arg}
  {inputs vars : List Var} {next n n' : Nat} {visible : List Nat}

/--
A recorded loop, or what is recorded of a bridge in front of its end, as a tracer makes it: results
are new, those of checks included, and exits stand where they belong.
-/
structure WellRecorded (inputs : List Var) (ops : List Operation) (args : List Arg) (next : Nat) :
    Prop extends WellFormedLoop inputs ops args next where
  once : (resultIds ops).Nodup
  inner : ∀ op ∈ ops, op.Inner

theorem WellRecorded.mono (h : WellRecorded inputs ops args n) (hle : n ≤ n') :
    WellRecorded inputs ops args n' :=
  { h with
    inputs_lt := fun v hv => Nat.lt_of_lt_of_le (h.inputs_lt v hv) hle
    results_lt := fun v hv => Nat.lt_of_lt_of_le (h.results_lt v hv) hle }

structure RecordedOver (inputs : List Var) (ops : List Operation) (args : List Arg) (next : Nat) :
    Prop where
  inScope : Scoped inputs ops
  args_inScope : ∀ v ∈ args.filterMap Arg.var?, v ∈ scopeAfter inputs ops
  inputs_lt : ∀ v ∈ inputs, v.id < next
  resultIds_lt : ∀ i ∈ resultIds ops, i < next
  once : (resultIds ops).Nodup
  inner : ∀ op ∈ ops, op.Inner

theorem WellRecorded.resultIds_lt (h : WellRecorded inputs ops args next) :
    ∀ i ∈ resultIds ops, i < next := by
  intro i hi
  obtain ⟨op, hop, r, hr, rfl⟩ := exists_of_mem_resultIds hi
  exact h.results_lt r (List.mem_filterMap.mpr ⟨op, hop, hr⟩)

theorem WellRecorded.over (h : WellRecorded inputs ops args next) :
    RecordedOver inputs ops args next :=
  { h with resultIds_lt := h.resultIds_lt }

theorem RecordedOver.mono (h : RecordedOver inputs ops args n) (hle : n ≤ n') :
    RecordedOver inputs ops args n' :=
  { h with
    inputs_lt := fun v hv => Nat.lt_of_lt_of_le (h.inputs_lt v hv) hle
    resultIds_lt := fun i hi => Nat.lt_of_lt_of_le (h.resultIds_lt i hi) hle }

theorem RecordedOver.straight (h : RecordedOver inputs ops args next) :
    ∀ op ∈ ops, op.isFinal = false := fun op hop => (h.inner op hop).straight

theorem RecordedOver.not_mem_inputs (h : RecordedOver inputs ops args next) :
    ∀ i ∈ resultIds ops, i ∉ inputs.map (·.id) := by
  intro i hi hmem
  obtain ⟨op, hop, r, hr, rfl⟩ := exists_of_mem_resultIds hi
  obtain ⟨v, hv, hid⟩ := List.mem_map.mp hmem
  exact h.inScope.fresh op hop r hr v hv hid

theorem Flows.mem_or_mem {seen seen' : List Nat} (h : Flows seen ops seen') {i : Nat}
    (hi : i ∈ seen') : i ∈ seen ∨ i ∈ resultIds ops := by
  induction h with
  | nil => exact .inl hi
  | @cons seen seen' seen'' op ops hfinal huses hvisible _ ih =>
    rcases ih hi with hi | hi
    · rcases visibleAfter_eq_ok.mp hvisible with ⟨-, rfl⟩ | ⟨-, ⟨-, rfl⟩ | ⟨r, hr, -, rfl⟩⟩
      · obtain ⟨v, hv, rfl⟩ := List.mem_map.mp hi
        exact .inl (huses v (List.mem_append_left _ hv))
      · exact .inl hi
      · rcases List.mem_cons.mp hi with rfl | hi
        · exact .inr (mem_resultIds (List.mem_cons_self ..) hr)
        · exact .inl hi
    · exact .inr (subset_resultIds_cons op ops hi)

section Closing

variable {origin : Nat → Nat → Prop} {done : List Operation} {seen : List Var} {closing : Operation}

theorem Reaches.visible_of_args (h : Reaches s origin p done seen visible ops)
    (hargs : ∀ v ∈ args.filterMap Arg.var?, v ∈ seen) :
    ∀ w, .var w ∈ args.map p.forwarding.resolve → w.id ∈ visible := by
  intro w hw
  obtain ⟨v, hv, hvw⟩ := Forwarding.mem_map_resolve_iff.mp hw
  exact h.ends v (hargs v (Arg.mem_filterMap_var?_iff.mpr hv)) w hvw

theorem Reaches.checkBranch_closing (h : Reaches s origin p done seen visible ops)
    (hfinal : closing.isFinal = true) (hargs : ∀ v ∈ closing.args.filterMap Arg.var?, v ∈ seen)
    (hfail : closing.failVars = []) (hresult : ∀ r, closing.result = some r → r.id ∉ visible)
    (descr : Option Descr) :
    checkBranch visible [{ p.forwarding.apply closing with descr }] = .ok () := by
  refine checkBranch_singleton hfinal (fun v hv => ?_) hresult
  rcases List.mem_append.mp hv with hv | hv
  · exact h.visible_of_args hargs _ (Arg.mem_filterMap_var?_iff.mp hv)
  · have hnil := Forwarding.failVars_apply_eq_nil (σ := p.forwarding) hfail
    have hv : v ∈ (p.forwarding.apply closing).failVars := hv
    rw [hnil] at hv
    cases hv

end Closing

section Once

theorem Reaches.ofShared {shared : OptState}
    (h : WellRecorded inputs ops args shared.values.next)
    (hvisible : ∀ i, i ∈ visible ↔ i ∈ inputs.map (·.id)) :
    Reaches s (fun i x => x = i) (.ofShared shared) [] inputs visible ops where
  grounded := Forwarding.grounded_empty
  inScope := h.inScope
  once := h.once
  ends v hv w hw := by
    have hvw : Arg.var v = .var w := (Forwarding.resolve_of_get?_none rfl).symm.trans hw
    cases hvw
    exact (hvisible _).mpr (List.mem_map_of_mem hv)
  plain _ op hop r hr :=
    ⟨rfl, fun hmem => h.over.not_mem_inputs _ (mem_resultIds hop hr) ((hvisible _).mp hmem)⟩
  unpassed op hop r hr _ v hv hpass := by
    have hend : Forwarding.empty.IsEnd (.var v) := Forwarding.isEnd_var.mpr rfl
    obtain ⟨w, hw, hid⟩ := (Forwarding.passes_of_isEnd hend).mp hpass
    cases hw
    exact h.inScope.fresh op hop r hr v hv hid
  passing v hv i _ hpass := by
    have hend : Forwarding.empty.IsEnd (.var v) := Forwarding.isEnd_var.mpr rfl
    obtain ⟨w, hw, rfl⟩ := (Forwarding.passes_of_isEnd hend).mp hpass
    cases hw
    exact ⟨v.id, rfl, self_mem_copiesOf [] v.id⟩
  reflexive _ _ := rfl
  below := ⟨fun _ hget => absurd rfl hget, fun _ _ hget => by cases hget⟩
  seen_lt := h.inputs_lt
  visible_lt i hi := by
    obtain ⟨v, hv, rfl⟩ := List.mem_map.mp ((hvisible i).mp hi)
    exact h.inputs_lt v hv
  results_lt := h.resultIds_lt

theorem WellRecorded.walk {shared : OptState} {last : Option Operation} (hplain : s.renames = false)
    (h : WellRecorded inputs ops args shared.values.next)
    (hrun : runFrom (Pass.run s ops) (.ofShared shared) = (.ok last, p))
    (hvisible : ∀ i, i ∈ visible ↔ i ∈ inputs.map (·.id)) :
    ∃ visible', Flows visible p.out visible' ∧ resultIds p.out ⊆ resultIds ops ∧
      Reaches s (fun i x => x = i) p ops (scopeAfter inputs ops) visible' [] ∧
      shared.values.next ≤ p.shared.values.next := by
  obtain ⟨code, visible', happends, hreaches⟩ := (Reaches.ofShared h hvisible).run hrun
    h.inner fun hren => by rw [hplain] at hren; cases hren
  have hout : p.out = code := happends.out.trans (List.nil_append code)
  refine ⟨visible', hout ▸ happends.flows, fun i hi => ?_, hreaches,
    Pass.next_le_of_run hrun h.straight⟩
  rcases happends.results i (hout ▸ hi) with ⟨-, hmem⟩ | ⟨hren, -⟩
  · exact hmem
  · rw [hplain] at hren
    cases hren

end Once

/--
Code that can be submitted behind its inputs, with numbers below `next`: it is consistent as a
bridge, and its inputs are distinct and not redefined.
-/
structure Ready (inputs : List Var) (ops : List Operation) (next : Nat) : Prop where
  nodup : (inputs.map (·.id)).Nodup
  inputs_lt : ∀ v ∈ inputs, v.id < next
  branch : ∀ visible, (∀ i, i ∈ visible ↔ i ∈ inputs.map (·.id)) → checkBranch visible ops = .ok ()
  results_lt : ∀ i ∈ resultIds ops, i < next
  results_new : ∀ i ∈ resultIds ops, i ∉ inputs.map (·.id)

namespace Ready

theorem asBranch (h : Ready inputs ops next) :
    checkBranch (inputs.map (·.id)) ops = .ok () :=
  h.branch _ fun _ => Iff.rfl

theorem asCode (h : Ready inputs ops next) : checkCode inputs ops = .ok () := by
  obtain ⟨seen, hinputs, hseen⟩ := checkInputs_eq_ok h.nodup
  rw [checkCode, hinputs]
  exact h.branch seen hseen

theorem label (h : Ready inputs ops next) (descr : Descr) :
    Ready inputs (.label inputs descr :: ops) next := by
  have hresults : resultIds (.label inputs descr :: ops) = resultIds ops := rfl
  refine { h with
    branch := fun visible hvisible => ?_
    results_lt := hresults ▸ h.results_lt
    results_new := hresults ▸ h.results_new }
  have hlabel : Flows visible [.label inputs descr] (inputs.map (·.id)) :=
    .label descr fun v hv => (hvisible _).mpr (List.mem_map_of_mem hv)
  exact hlabel.checkBranch_append h.asBranch

end Ready

/-- The end of a recorded trace: a jump or a finish, with a result that is new if it has one. -/
structure WellClosed (inputs : List Var) (ops : List Operation) (closing : Operation)
    (next : Nat) : Prop where
  isFinal : closing.isFinal = true
  failVars : closing.failVars = []
  result_lt : ∀ r, closing.result = some r → r.id < next
  result_new : ∀ r, closing.result = some r → r.id ∉ inputs.map (·.id) ∧ r.id ∉ resultIds ops

theorem WellRecorded.ready_append {shared : OptState} {last : Option Operation}
    {rest : List Operation} (hplain : s.renames = false)
    (h : WellRecorded inputs ops args shared.values.next)
    (hrun : runFrom (Pass.run s ops) (.ofShared shared) = (.ok last, p))
    (hle : p.shared.values.next ≤ next)
    (hrest : ∀ visible, (∀ i ∈ visible, i ∈ inputs.map (·.id) ∨ i ∈ resultIds ops) →
      Reaches s (fun i x => x = i) p ops (scopeAfter inputs ops) visible [] →
      checkBranch visible rest = .ok ())
    (hresults : ∀ i ∈ resultIds rest, i < next ∧ i ∉ inputs.map (·.id)) :
    Ready inputs (p.out ++ rest) next := by
  obtain ⟨-, -, hsub, -, hle'⟩ := h.walk hplain hrun fun _ => Iff.rfl
  have hlt := Nat.le_trans hle' hle
  exact {
    nodup := h.nodup
    inputs_lt := fun v hv => Nat.lt_of_lt_of_le (h.inputs_lt v hv) hlt
    branch := fun visible hvisible => by
      obtain ⟨visible', hflows, hsub, hreaches, -⟩ := h.walk hplain hrun hvisible
      exact hflows.checkBranch_append <| hrest visible' (fun i hi =>
        (hflows.mem_or_mem hi).imp (hvisible i).mp fun hi => hsub hi) hreaches
    results_lt := fun i hi => by
      rcases List.mem_append.mp (resultIds_append _ _ ▸ hi) with hi | hi
      · exact Nat.lt_of_lt_of_le (h.resultIds_lt i (hsub hi)) hlt
      · exact (hresults i hi).1
    results_new := fun i hi => by
      rcases List.mem_append.mp (resultIds_append _ _ ▸ hi) with hi | hi
      · exact h.over.not_mem_inputs i (hsub hi)
      · exact (hresults i hi).2 }

/-- A trace that has been walked once can be submitted, whatever its end is made to name. -/
theorem WellRecorded.ready {shared : OptState} {last : Option Operation} {closing : Operation}
    (hplain : s.renames = false) (h : WellRecorded inputs ops closing.args shared.values.next)
    (hclosing : WellClosed inputs ops closing shared.values.next)
    (hrun : runFrom (Pass.run s ops) (.ofShared shared) = (.ok last, p)) (descr : Option Descr) :
    Ready inputs (p.out ++ [{ p.forwarding.apply closing with descr }]) p.shared.values.next := by
  refine h.ready_append hplain hrun (Nat.le_refl _) (fun visible hvisible hreaches => ?_)
    fun i hi => ?_
  · refine hreaches.checkBranch_closing hclosing.isFinal h.args_inScope hclosing.failVars
      (fun r hr hmem => ?_) descr
    obtain ⟨hinputs, hops⟩ := hclosing.result_new r hr
    exact (hvisible r.id hmem).elim hinputs hops
  · obtain ⟨op, hop, r, hr, rfl⟩ := exists_of_mem_resultIds hi
    rw [List.mem_singleton.mp hop] at hr
    exact ⟨Nat.lt_of_lt_of_le (hclosing.result_lt r hr) (Pass.next_le_of_run hrun h.straight),
      (hclosing.result_new r hr).1⟩

section Twice

/-- The header has the number `i` for the input `x`. -/
def Takes (inputs vars : List Var) (i x : Nat) : Prop :=
  ∃ e ∈ inputs.zip vars, e.1.id = x ∧ e.2.id = i

theorem HeaderTakes.reaches (h : HeaderTakes inputs vars) (hren : s.renames = true)
    (hp : p.forwarding = headerTable inputs vars)
    (hops : RecordedOver inputs ops args p.shared.values.next)
    (huncopied : ∀ op ∈ ops, op.opcode = .sameAs → ∀ r, op.result = some r →
      ∀ v ∈ vars, v.id ≠ r.id)
    (hvars : ∀ v ∈ vars, v.id < p.shared.values.next) :
    Reaches s (Takes inputs vars) p [] inputs (vars.map (·.id)) ops where
  grounded := hp ▸ h.grounded
  inScope := hops.inScope
  once := hops.once
  ends u hu w hw := by
    obtain ⟨e, he, -, hresolve⟩ := h.resolve_input hu
    rw [hp, hresolve] at hw
    cases hw
    exact List.mem_map_of_mem (List.of_mem_zip he).2
  plain hno := by
    rw [hren] at hno
    cases hno
  unpassed op hop r hr hcopy u hu hpass := by
    rw [hp] at hpass
    rcases h.passes_input hpass with hid | ⟨e, he, -, hid⟩
    · exact hops.inScope.fresh op hop r hr u hu hid.symm
    · exact huncopied op hop (hcopy hren) r hr e.2 (List.of_mem_zip he).2 hid
  passing u hu i hi hpass := by
    rw [hp] at hpass
    rcases h.passes_input hpass with rfl | ⟨e, he, hid, hi⟩
    · exact absurd (List.mem_map_of_mem hu) (hops.not_mem_inputs _ (hi hren))
    · exact ⟨u.id, ⟨e, he, hid, hi⟩, self_mem_copiesOf [] u.id⟩
  reflexive hno := by
    rw [hren] at hno
    cases hno
  below := hp ▸ HeaderTakes.below hops.inputs_lt hvars
  seen_lt := hops.inputs_lt
  visible_lt i hi := by
    obtain ⟨v, hv, rfl⟩ := List.mem_map.mp hi
    exact hvars v hv
  results_lt := hops.resultIds_lt

/-- The copies in front of a header, behind which all of its variables are visible. -/
theorem ExtendsHeader.flows {header vs : List Var} {i : Nat} {l : List Arg} {cs : List Operation}
    (h : ExtendsHeader inputs header i n l vs cs n')
    (hl : ∀ w, .var w ∈ l → w.id ∈ visible) (hlt : ∀ i ∈ visible, i < n) :
    ∃ visible', Flows visible cs visible' ∧ visible ⊆ visible' ∧ (∀ v ∈ vs, v.id ∈ visible') ∧
      ∀ i ∈ resultIds cs, n ≤ i ∧ i < n' := by
  induction h generalizing visible with
  | nil => exact ⟨visible, .nil visible, List.Subset.refl _, by simp, by simp [resultIds]⟩
  | @reuse header vs i n n' a l cs v hreuse _ ih =>
    obtain ⟨rfl, -, -⟩ := eq_of_reusable? hreuse
    obtain ⟨visible', hflows, hsub, hvs, hresults⟩ :=
      ih (fun w hw => hl w (List.mem_cons_of_mem _ hw)) hlt
    refine ⟨visible', hflows, hsub, fun w hw => ?_, hresults⟩
    rcases List.mem_cons.mp hw with rfl | hw
    · exact hsub (hl w (List.mem_cons_self ..))
    · exact hvs w hw
  | @copy header vs i n n' a l cs _ hrest ih =>
    let copy : Operation := { opcode := .sameAs, args := [a], result := some ⟨n, a.kind⟩ }
    have hcopy : Flows visible [copy] (n :: visible) := by
      refine .single rfl (fun v hv => ?_) (visibleAfter_eq_ok.mpr (.inr ⟨OpCode.noConfusion, .inr
        ⟨⟨n, a.kind⟩, rfl, fun hmem => absurd (hlt n hmem) (Nat.lt_irrefl n), rfl⟩⟩))
      rcases List.mem_append.mp hv with hv | hv
      · cases List.mem_singleton.mp (Arg.mem_filterMap_var?_iff.mp hv)
        exact hl _ (List.mem_cons_self ..)
      · cases hv
    obtain ⟨visible', hflows, hsub, hvs, hresults⟩ := ih
      (fun w hw => List.mem_cons_of_mem _ (hl w (List.mem_cons_of_mem _ hw))) (fun i hi => by
        rcases List.mem_cons.mp hi with rfl | hi
        · exact Nat.lt_succ_self _
        · exact Nat.lt_succ_of_lt (hlt i hi))
    refine ⟨visible', hcopy.append hflows, List.Subset.trans (List.subset_cons_self ..) hsub,
      fun w hw => ?_, fun i hi => ?_⟩
    · rcases List.mem_cons.mp hw with rfl | hw
      · exact hsub (List.mem_cons_self ..)
      · exact hvs w hw
    · have hle := hrest.next_le
      have hi : i ∈ n :: resultIds cs := hi
      rcases List.mem_cons.mp hi with rfl | hi
      · omega
      · have := hresults i hi
        omega

variable {closing : Operation} {endArgs : List Arg} {result : Optimized} {header : LoopHeader}
  {r : Pass}

theorem PeeledInto.next_le
    (h : PeeledInto s p p' inputs closing ops endArgs result header q r)
    (hops : ∀ op ∈ ops, op.isFinal = false) :
    p.shared.values.next ≤ p'.shared.values.next := by
  obtain ⟨last, hrun⟩ := h.run
  rw [h.values]
  exact Nat.le_trans h.built.next_le (Pass.next_le_of_run hrun hops)

/-- What the second walk puts out, for a header that fits. -/
theorem PeeledInto.branch {shared : OptState}
    (h : PeeledInto s (.ofShared shared) p' inputs closing ops endArgs result header q r)
    (hops : RecordedOver inputs ops closing.args shared.values.next)
    (htakes : HeaderTakes inputs header.vars) (hvars : ∀ v ∈ header.vars, v.id < q.shared.values.next)
    (huncopied : ∀ op ∈ ops, op.opcode = .sameAs → ∀ r, op.result = some r →
      ∀ v ∈ header.vars, v.id ≠ r.id)
    (hspares : ∀ op ∈ ops, Reaches.SparesResult (Takes inputs header.vars) ops op)
    (hfinal : closing.isFinal = true) (hfail : closing.failVars = [])
    (hresult : closing.result = none)
    (hvisible : ∀ w, .var w ∈ endArgs → w.id ∈ visible)
    (hlt : ∀ i ∈ visible, i < shared.values.next) :
    checkBranch visible (header.copies ++ [header.label] ++ result.operations) = .ok () ∧
      ∀ i ∈ resultIds (header.copies ++ [header.label] ++ result.operations),
        shared.values.next ≤ i ∧ i < p'.shared.values.next := by
  have hle : shared.values.next ≤ q.shared.values.next := h.built.next_le
  obtain ⟨last, hrun⟩ := h.run
  obtain ⟨code, visible', happends, hreaches⟩ :=
    (htakes.reaches (s := { s with renames := true }) rfl h.start.1 (hops.mono hle) huncopied
      hvars).run hrun hops.inner fun _ op hop => hspares op hop
  have hle' := Pass.next_le_of_run hrun hops.straight
  obtain ⟨visible₁, hcopies, -, hheader, hresults⟩ := h.built.flows hvisible hlt
  have hlabel : Flows visible₁ [header.label] (header.vars.map (·.id)) := .label _ hheader
  have hout : r.out = code := happends.out.trans (by rw [h.start.2.1]; rfl)
  have hjump := hreaches.checkBranch_closing hfinal hops.args_inScope hfail
    (fun r hr => by rw [hresult] at hr; cases hr) (some (.target header.entry))
  constructor
  · rw [h.operations, hout]
    exact (hcopies.append hlabel).checkBranch_append (happends.flows.checkBranch_append hjump)
  · intro i hi
    rw [h.values]
    rw [h.operations, hout, resultIds_append, resultIds_append, resultIds_append, List.mem_append,
      List.mem_append, List.mem_append] at hi
    rcases hi with (hi | hi) | hi | hi
    · have hi : shared.values.next ≤ i ∧ i < q.shared.values.next := hresults i hi
      exact ⟨hi.1, Nat.lt_of_lt_of_le hi.2 hle'⟩
    · cases hi
    · rcases happends.results i hi with ⟨hno, -⟩ | ⟨-, hlow, hhigh⟩
      · cases hno
      · exact ⟨Nat.le_trans hle hlow, hhigh⟩
    · obtain ⟨op, hop, r, hr, rfl⟩ := exists_of_mem_resultIds hi
      rw [List.mem_singleton.mp hop] at hr
      have hr : closing.result = some r := hr
      rw [hresult] at hr
      cases hr

/--
No guard that defines a variable hands over an input whose value in the next round is that variable.
Copies count in both places.
-/
def KeepsExits (inputs : List Var) (ops : List Operation) (args : List Arg) : Prop :=
  ∀ op ∈ ops, ∀ r ∈ op.result, ∀ e ∈ inputs.zip args, ∀ u ∈ e.2.var?, u.id ∈ copiesOf ops r.id →
    ∀ v ∈ op.failVars, v.id ∉ copiesOf ops e.1.id

theorem sparesResult_of_keepsExits {shared : OptState} {vars : List Var} {copies : List Operation}
    (hplain : s.renames = false) (h : WellRecorded inputs ops args shared.values.next)
    (hreaches : Reaches s (fun i x => x = i) p ops (scopeAfter inputs ops) visible [])
    (hbuilt : ExtendsHeader inputs [] 0 n (args.map p.forwarding.resolve) vars copies n')
    (hle : shared.values.next ≤ n) (hkeeps : KeepsExits inputs ops args) :
    ∀ op ∈ ops, Reaches.SparesResult (Takes inputs vars) ops op := by
  rintro op hop r hr v hv x ⟨e, he, rfl, hid⟩
  obtain ⟨k, hk, hk'⟩ := HeaderTakes.exists_index he
  rcases hbuilt.cases_of_getElem? hk' with ⟨hl, -⟩ | ⟨hfresh, -⟩
  · rw [List.getElem?_map, Option.map_eq_some_iff] at hl
    obtain ⟨a, ha, haw⟩ := hl
    obtain ⟨u, rfl⟩ := Forwarding.exists_var_of_resolve haw
    have hmem : .var u ∈ args := List.mem_of_getElem? ha
    have hscope := h.args_inScope u (Arg.mem_filterMap_var?_iff.mpr hmem)
    have hpass := hreaches.grounded.passes_resolve haw
    have hplain : s.renames = true → e.2.id ∈ resultIds [] := fun hren => by
      rw [hplain] at hren
      cases hren
    obtain ⟨x, rfl, hcopy⟩ := hreaches.passing u hscope e.2.id hplain hpass
    exact hkeeps op hop r hr (e.1, .var u) (List.mem_iff_getElem?.mpr
      ⟨k, List.getElem?_zip_eq_some.mpr ⟨hk, ha⟩⟩) u rfl (hid ▸ hcopy) v hv
  · have := h.resultIds_lt r.id (mem_resultIds hop hr)
    omega

theorem WellRecorded.ready_peeled {shared₁ shared₂ : OptState} {p₁ p₂ : Pass}
    {inputs₁ : List Var} {ops₁ : List Operation} {args₁ : List Arg} {last : Option Operation}
    (hplain : s.renames = false) (h₁ : WellRecorded inputs₁ ops₁ args₁ shared₁.values.next)
    (hrun : runFrom (Pass.run s ops₁) (.ofShared shared₁) = (.ok last, p₁))
    (hle : p₁.shared.values.next ≤ shared₂.values.next) {s' : PassSettings} {descr : Descr}
    (h : RecordedOver inputs ops args shared₂.values.next)
    (hinto : PeeledInto s' (.ofShared shared₂) p₂ inputs (.jump args descr) ops
      (args₁.map p₁.forwarding.resolve) result header q r)
    (htakes : HeaderTakes inputs header.vars) (hvars : ∀ v ∈ header.vars, v.id < q.shared.values.next)
    (huncopied : ∀ op ∈ ops, op.opcode = .sameAs → ∀ r, op.result = some r →
      ∀ v ∈ header.vars, v.id ≠ r.id)
    (hspares : ∀ op ∈ ops, Reaches.SparesResult (Takes inputs header.vars) ops op) :
    Ready inputs₁ (p₁.out ++ (header.copies ++ [header.label] ++ result.operations))
      p₂.shared.values.next := by
  have hle' := hinto.next_le h.straight
  have hbranch (visible : List Nat)
      (hreaches : Reaches s (fun i x => x = i) p₁ ops₁ (scopeAfter inputs₁ ops₁) visible []) :=
    hinto.branch h htakes hvars huncopied hspares rfl rfl rfl
      (hreaches.visible_of_args h₁.args_inScope)
      (fun i hi => Nat.lt_of_lt_of_le (hreaches.visible_lt i hi) hle)
  obtain ⟨visible, -, -, hreaches, hle₁⟩ := h₁.walk hplain hrun fun _ => Iff.rfl
  have hresults := (hbranch visible hreaches).2
  refine h₁.ready_append hplain hrun (Nat.le_trans hle hle')
    (fun visible _ hreaches => (hbranch visible hreaches).1)
    fun i hi => ⟨(hresults i hi).2, fun hmem => ?_⟩
  obtain ⟨v, hv, rfl⟩ := List.mem_map.mp hmem
  have := h₁.inputs_lt v hv
  have := (hresults v.id hi).1
  omega

/-- A loop with its first iteration peeled off. -/
theorem WellRecorded.ready_unrolled {shared₁ shared₂ : OptState} {p₁ p₂ : Pass} {descr : Descr}
    {state : ExportedState} {pre : List Operation} (hplain : s.renames = false)
    (h : WellRecorded inputs ops args shared₁.values.next)
    (hpre : runFrom (Pass.preamble s inputs args ops) (.ofShared shared₁) = (.ok (state, pre), p₁))
    (hvalues : shared₂.values = p₁.shared.values)
    (hpeeled : runFrom (Pass.peeled s inputs (.jump args descr) ops state) (.ofShared shared₂) =
      (.ok result, p₂))
    (hheader : result.header = some header) (hkeeps : KeepsExits inputs ops args) :
    Ready inputs (pre ++ (header.copies ++ [header.label] ++ result.operations))
      p₂.shared.values.next := by
  obtain ⟨last, hrun, hend, rfl⟩ := preamble_eq_ok hpre
  obtain ⟨header', q, r, hinto⟩ := peeled_eq_ok hpeeled
  cases hheader.symm.trans hinto.isHeader
  obtain ⟨visible, -, -, hreaches, hle₁⟩ := h.walk hplain hrun
    fun _ => Iff.rfl
  have hle : shared₁.values.next ≤ shared₂.values.next := by rwa [hvalues]
  rw [hend] at hinto
  obtain ⟨hfits, hvars, huncopied⟩ := headerFits_of_preamble h.toWellFormedLoop hplain hrun
    hinto.built hle hinto.arity
  exact h.ready_peeled hplain hrun (Nat.le_of_eq (congrArg ValueIds.next hvalues).symm)
    (h.mono hle).over hinto hfits.toHeaderTakes hvars huncopied
    (sparesResult_of_keepsExits hplain h hreaches hinto.built hle hkeeps)

/--
A bridge that has found no entry point, and behind it the loop that it leads to. All results of the
loop are new; its inputs may be variables of the bridge, and one of them may stand for several.
-/
theorem WellRecorded.ready_retraced {shared₁ shared₂ : OptState} {p₁ p₂ : Pass} {descr : Descr}
    {inputs₁ : List Var} {ops₁ : List Operation} {args₁ : List Arg} {last : Option Operation}
    {state : ExportedState} (hplain : s.renames = false)
    (h₁ : WellRecorded inputs₁ ops₁ args₁ shared₁.values.next)
    (hrun : runFrom (Pass.run s ops₁) (.ofShared shared₁) = (.ok last, p₁))
    (hend : state.endArgs = args₁.map p₁.forwarding.resolve)
    (hle : p₁.shared.values.next ≤ shared₂.values.next) {s' : PassSettings}
    (h : RecordedOver inputs ops args shared₂.values.next)
    (hpeeled : runFrom (Pass.peeled s' inputs (.jump args descr) ops state) (.ofShared shared₂) =
      (.ok result, p₂))
    (hheader : result.header = some header)
    (hsame : ∀ u ∈ inputs, ∀ v ∈ scopeAfter inputs₁ ops₁, u.id = v.id → u = v)
    (hfresh : ∀ i ∈ resultIds ops, i ∉ (scopeAfter inputs₁ ops₁).map (·.id)) :
    Ready inputs₁ (p₁.out ++ (header.copies ++ [header.label] ++ result.operations))
      p₂.shared.values.next := by
  obtain ⟨header', q, r, hinto⟩ := peeled_eq_ok hpeeled
  cases hheader.symm.trans hinto.isHeader
  have hle₁ : shared₁.values.next ≤ p₁.shared.values.next := Pass.next_le_of_run hrun h₁.straight
  have hscope : ∀ w, .var w ∈ state.endArgs → w ∈ scopeAfter inputs₁ ops₁ := by
    intro w hw
    have ht := tracks_ofInputs shared₁ hplain h₁.inScope args₁
    obtain ⟨ht', -⟩ := Follows.of_run hrun h₁.straight ht 0
    exact (mem_scope_of_endArgs h₁.toWellFormedLoop hplain ht' (Lifetimes.seen_after _ ops₁)
      (hend ▸ hw)).1
  have hbuilt := hinto.built
  have hscope_lt : ∀ v ∈ scopeAfter inputs₁ ops₁, v.id < shared₂.values.next := fun v hv =>
    Nat.lt_of_lt_of_le (h₁.lt_of_mem_scope v hv) (Nat.le_trans hle₁ hle)
  -- the header is made of fresh variables and of variables of the bridge
  have hheader {v : Var} (hv : v ∈ header.vars) : v ∈ scopeAfter inputs₁ ops₁ ∨
      shared₂.values.next ≤ v.id ∧ v.id < q.shared.values.next := by
    obtain ⟨k, hk⟩ := List.mem_iff_getElem?.mp hv
    rcases hbuilt.cases_of_getElem? hk with ⟨hl, -⟩ | hnew
    · exact .inl (hscope v (List.mem_of_getElem? hl))
    · exact .inr hnew
  have hnotResult : ∀ i ∈ resultIds ops, ∀ v ∈ header.vars, v.id ≠ i := by
    rintro i hi v hv rfl
    rcases hheader hv with hv | hv
    · exact hfresh v.id hi (List.mem_map_of_mem hv)
    · have := h.resultIds_lt v.id hi
      omega
  have htakes : HeaderTakes inputs header.vars :=
    .of_extendsHeader h.inputs_lt hbuilt (Nat.le_refl _) hinto.arity fun _ u w hu hw =>
      hsame u (List.mem_of_getElem? hu) w (hscope w (List.mem_of_getElem? hw))
  rw [hend] at hinto
  refine h₁.ready_peeled hplain hrun hle h hinto htakes (fun v hv => ?_)
    (fun op hop _ r hr v hv => hnotResult r.id (mem_resultIds hop hr) v hv) ?_
  · rcases hheader hv with hv | hv
    · exact Nat.lt_of_lt_of_le (hscope_lt v hv) hbuilt.next_le
    · exact hv.2
  · rintro op hop r hr v - x ⟨e, he, -, hid⟩
    exact absurd hid (hnotResult r.id (mem_resultIds hop hr) e.2 (List.of_mem_zip he).2)

end Twice

end HotLoop
