import HotLoop.Proofs.Walk.Peeled
import HotLoop.Proofs.Walk.Request
import HotLoop.Proofs.Walk.Simple

/-!
# Unrolled loops

A preamble runs the first round, its end values become the header, and the loop proper runs every
further round. Turn by turn the two together do what the recorded loop does round by round, under
the condition that the header's variables keep the values of the inputs for as long as those are
read.
-/

namespace HotLoop

variable {s : PassSettings} {p p' : Pass} {f : Lifetimes} {ops : List Operation}
  {args : List Arg} {inputs : List Var}

section Runs

theorem Tracks.get?_copy {op : Operation} (ht : Tracks s p f (op :: ops) args)
    (h : Pass.Stepped s p p' op) (hop : op.opcode = .sameAs) {r : Var}
    (hr : op.result = some r) : p'.forwarding.get? r ≠ none := by
  cases h with
  | drop hfate _ =>
    have hdef : (p.forwarding.apply op).defines? = none := defines?_of_drop hfate
    have hdef : op.defines? = none := hdef
    simp [Operation.defines?, hop, OpCode.isCheck, hr] at hdef
  | replace r' a hfate heq =>
    obtain ⟨deps, rfl⟩ := heq
    have hdef : op.defines? = some r' := (replace_cases hfate).1
    have hrr : r' = r := Option.some.inj ((result_of_defines? hdef).symm.trans hr)
    subst hrr
    obtain ⟨-, hne⟩ := ht.replace_isEnd hfate
    have hself : a ≠ .var r' := fun heq => hne r' heq rfl
    rw [Forwarding.get?_forward, if_pos ⟨hself, rfl⟩]
    exact Option.some_ne_none a
  | keep op' e t hfate _ =>
    rcases keep_cases hfate with ⟨-, -, hno⟩ | ⟨hquasi, -⟩
    · exact absurd hop hno
    · have hquasi : op.opcode = .quasiimmutField := hquasi
      rw [hop] at hquasi
      cases hquasi

theorem get?_copy_of_run {last : Option Operation}
    (hrun : runFrom (Pass.run s ops) p = (.ok last, p')) (hops : ∀ op ∈ ops, op.isFinal = false)
    (ht : Tracks s p f ops args) :
    (∀ v, p.forwarding.get? v ≠ none → p'.forwarding.get? v ≠ none) ∧
      ∀ op ∈ ops, op.opcode = .sameAs → ∀ r, op.result = some r →
        p'.forwarding.get? r ≠ none := by
  induction ops generalizing p f with
  | nil =>
    simp only [Pass.run, runFrom_pure, Prod.mk.injEq] at hrun
    rw [hrun.2]
    exact ⟨fun _ hv => hv, by simp⟩
  | cons op ops ih =>
    have hop := hops op (List.mem_cons_self ..)
    obtain ⟨q, hstepped, hrest⟩ := Pass.run_cons_eq_ok hop hrun
    obtain ⟨hkeep, hcopies⟩ := ih hrest (fun o ho => hops o (List.mem_cons_of_mem _ ho))
      (ht.step hstepped)
    refine ⟨fun v hv => hkeep v (hstepped.get?_ne_none hv), fun o ho hsame r hr => ?_⟩
    rcases List.mem_cons.mp ho with rfl | ho
    · exact hkeep r (ht.get?_copy hstepped hsame hr)
    · exact hcopies o ho hsame r hr

end Runs

theorem EmittedFrom.exists_emits {renames : Bool} {code recorded : List Site}
    (h : EmittedFrom renames code recorded) : ∀ e ∈ code, ∃ r ∈ recorded, Site.Emits renames r e := by
  intro e he
  obtain ⟨l, hl, hsub⟩ := List.sublistForall₂_iff.mp h
  obtain ⟨i, hi, rfl⟩ := List.getElem_of_mem he
  have hlen := List.Forall₂.length_eq hl
  have hget := List.Forall₂.get hl hi (hlen ▸ hi)
  exact ⟨l[i], hsub.subset (List.getElem_mem _), hget⟩

theorem mem_sites {i : Nat} {ops : List Operation} {e : Site} (h : e ∈ sites i ops) :
    e.op ∈ ops := by
  induction ops generalizing i with
  | nil => cases h
  | cons op ops ih =>
    rcases List.mem_cons.mp h with rfl | h
    · exact List.mem_cons_self ..
    · exact List.mem_cons_of_mem _ (ih h)

theorem Scoped.ne_label {seen : List Var} {ops : List Operation} (h : Scoped seen ops) :
    ∀ op ∈ ops, op.opcode ≠ .label := by
  induction ops generalizing seen with
  | nil => simp
  | cons op ops ih =>
    intro o ho
    rcases List.mem_cons.mp ho with rfl | ho
    · exact h.2.2.1
    · exact ih h.2.2.2 o ho

theorem EmittedFrom.ne_label {renames : Bool} {code : List Site} {i : Nat}
    (h : EmittedFrom renames code (sites i ops)) (hscoped : Scoped inputs ops) :
    ∀ e ∈ code, e.op.opcode ≠ .label := by
  intro e he
  obtain ⟨r, hr, hemits⟩ := h.exists_emits e he
  rw [hemits.opcode]
  split
  · decide
  · exact hscoped.ne_label r.op (mem_sites hr)

theorem Site.Emits.weaken {renames : Bool} {r e : Site} (h : Site.Emits renames r e) :
    Site.Emits true r e := by
  refine ⟨h.origin, h.opcode, h.final, fun hguard hstays => ?_⟩
  obtain ⟨g, n, hdescr, hfail, hexit, hsame⟩ := h.guard hguard hstays
  refine ⟨g, n, hdescr, hfail, hexit, fun g' hquasi hg' => ?_⟩
  obtain ⟨hop, hkind, -⟩ := hsame g' hquasi hg'
  exact ⟨hop, hkind, fun hno => by cases hno⟩

theorem sites_append (i : Nat) (ops ops' : List Operation) :
    sites i (ops ++ ops') = sites i ops ++ sites (i + ops.length) ops' := by
  induction ops generalizing i with
  | nil => simp [sites]
  | cons op ops ih =>
    simp only [List.cons_append, sites, ih, List.length_cons]
    rw [Nat.add_right_comm, Nat.add_assoc]

def Site.ofOp (op : Operation) : Site := ⟨op, 0, []⟩

/-- `code` is compiled from the recorded operations: every guard in it stands for a recorded one. -/
def CompiledFrom (ops : List Operation) (code : List Site) : Prop :=
  ∀ e ∈ code, e.op.isGuard = true → ∃ r ∈ sites 0 ops, Site.Emits true r e

namespace CompiledFrom

variable {code code' : List Site}

theorem nil : CompiledFrom ops [] := by simp [CompiledFrom]

theorem append (h : CompiledFrom ops code) (h' : CompiledFrom ops code') :
    CompiledFrom ops (code ++ code') := by
  intro e he
  rcases List.mem_append.mp he with he | he
  · exact h e he
  · exact h' e he

theorem cons_ofOp {op : Operation} (hop : op.isGuard = false) (h : CompiledFrom ops code) :
    CompiledFrom ops (Site.ofOp op :: code) := by
  intro e he hguard
  rcases List.mem_cons.mp he with rfl | he
  · have hguard : op.isGuard = true := hguard
    rw [hop] at hguard
    cases hguard
  · exact h e he hguard

theorem map_ofOp {plain : List Operation} (h : ∀ op ∈ plain, op.isGuard = false) :
    CompiledFrom ops (plain.map Site.ofOp) := by
  induction plain with
  | nil => exact nil
  | cons op plain ih =>
    exact cons_ofOp (h op (List.mem_cons_self ..)) (ih fun o ho => h o (List.mem_cons_of_mem _ ho))

theorem ofEmitted {renames : Bool} (h : EmittedFrom renames code (sites 0 ops)) :
    CompiledFrom ops code := by
  intro e he _
  obtain ⟨r, hr, hemits⟩ := h.exists_emits e he
  exact ⟨r, hr, hemits.weaken⟩

end CompiledFrom

/-- The code does turn by turn what a recorded loop does round by round. -/
def RunsLike (memo : PureMemo) (code : List Operation) (entry : EntryPoint) (inputs : List Var)
    (ops : List Operation) (jumpArgs : List Arg) : Prop :=
  ∃ placed : List Site, placed.map (·.op) = code ∧ CompiledFrom ops placed ∧
    ∀ (σ : Type) (M : Machine σ) (base : Env) (n : Nat) (vals : List Value) (st : σ),
      M.turns memo base placed n (some (.target entry)) vals st =
        M.rounds memo base inputs (sites 0 (ops ++ [.jump jumpArgs (.target entry)])) n vals st

section Loop

variable {jumpArgs : List Arg} {next : Nat}

theorem WellFormedLoop.lt_of_mem_scope (h : WellFormedLoop inputs ops jumpArgs next) :
    ∀ v ∈ scopeAfter inputs ops, v.id < next :=
  lt_of_mem_scopeAfter h.inputs_lt fun op hop r hr =>
    h.results_lt r (List.mem_filterMap.mpr ⟨op, hop, hr⟩)

theorem WellFormedLoop.eq_of_id_eq (h : WellFormedLoop inputs ops jumpArgs next) :
    ∀ u ∈ scopeAfter inputs ops, ∀ w ∈ scopeAfter inputs ops, u.id = w.id → u = w :=
  fun _ hu _ hw hid =>
    List.inj_on_of_nodup_map (h.inScope.nodup_scopeAfter h.nodup) hu hw hid

theorem mem_scope_of_endArgs (h : WellFormedLoop inputs ops jumpArgs next) {q : Pass}
    (hplain : s.renames = false) (ht : Tracks s q f [] jumpArgs)
    (hseen : f.seen = scopeAfter inputs ops) {w : Var}
    (hw : .var w ∈ jumpArgs.map q.forwarding.resolve) :
    w ∈ scopeAfter inputs ops ∧ q.forwarding.get? w = none := by
  obtain ⟨v, hv, hvw⟩ := Forwarding.mem_map_resolve_iff.mp hw
  have hend := ht.grounded.isEnd_resolve (.var v)
  rw [hvw] at hend
  refine ⟨?_, Forwarding.isEnd_var.mp hend⟩
  have hv : v ∈ f.seen := by
    rw [hseen]
    exact h.args_inScope v (Arg.mem_filterMap_var?_iff.mpr hv)
  rw [← hseen]
  exact ht.closed hplain v hv w hvw

/--
A header takes over inputs, which may repeat, if it is built from values that are the inputs where
they have their numbers.
-/
theorem HeaderTakes.of_extendsHeader (hlt : ∀ v ∈ inputs, v.id < next)
    {endArgs : List Arg} {vars : List Var} {copies : List Operation} {n n' : Nat}
    (hbuilt : ExtendsHeader inputs [] 0 n endArgs vars copies n') (hle : next ≤ n)
    (harity : inputs.length = endArgs.length)
    (heq : ∀ (k : Nat) (u w : Var), inputs[k]? = some u → endArgs[k]? = some (.var w) →
      u.id = w.id → u = w) :
    HeaderTakes inputs vars where
  length := by rw [hbuilt.length_eq, harity]
  own k m v u hv hu hid := by
    rcases hbuilt.cases_of_getElem? hv with ⟨hl, hm⟩ | ⟨hfresh, -⟩
    · obtain rfl : m = k := by rw [hm m u hu hid, Nat.zero_add]
      exact ⟨rfl, heq m u v hu hl hid⟩
    · have := hlt u (List.mem_of_getElem? hu)
      omega

/--
A header that is built from values of a scope fits the inputs, if the inputs are in scope as well
and no number names two variables there.
-/
theorem HeaderFits.of_extendsHeader {scope : List Var} (hnodup : (inputs.map (·.id)).Nodup)
    (hinputs : inputs ⊆ scope) (hlt : ∀ v ∈ scope, v.id < next)
    (heq : ∀ u ∈ scope, ∀ w ∈ scope, u.id = w.id → u = w)
    {endArgs : List Arg} {vars : List Var} {copies : List Operation} {n n' : Nat}
    (hbuilt : ExtendsHeader inputs [] 0 n endArgs vars copies n') (hle : next ≤ n)
    (harity : inputs.length = endArgs.length)
    (hscope : ∀ w, .var w ∈ endArgs → w ∈ scope) : HeaderFits inputs vars where
  toHeaderTakes := .of_extendsHeader (fun v hv => hlt v (hinputs hv)) hbuilt hle harity
    fun _ u w hu hw => heq u (hinputs (List.mem_of_getElem? hu)) w
      (hscope w (List.mem_of_getElem? hw))
  nodup_inputs := hnodup
  nodup_header := hbuilt.nodup heq hlt hle hscope (by simp) (by simp)

theorem sameLeg_of_preamble (h : WellFormedLoop inputs ops jumpArgs next) {shared : OptState}
    {q : Pass} {last : Option Operation} (hplain : s.renames = false)
    (hrun : runFrom (Pass.run s ops) (.ofShared shared) = (.ok last, q)) {vars : List Var}
    {copies : List Operation} {n n' : Nat}
    (hbuilt : ExtendsHeader inputs [] 0 n (jumpArgs.map q.forwarding.resolve) vars copies n')
    (hle : next ≤ n) :
    ∃ code : List Site, q.out = code.map (·.op) ∧ EmittedFrom false code (sites 0 ops) ∧
      ∀ (σ : Type) (M : Machine σ) (ρ : Env) (st : σ) (jump label : Site) (rest : List Site),
        jump.op.opcode = .jump → jump.op.args = jumpArgs →
        label.op.opcode = .label → label.op.args = vars.map .var →
        SameLeg jumpArgs.length label.op.descr (M.run s.memo (sites 0 ops ++ [jump]) ρ st)
          (M.run s.memo (code ++ (copies.map Site.ofOp ++ label :: rest)) ρ st) := by
  have hargs : ∀ v, .var v ∈ jumpArgs → v ∈ (Lifetimes.ofInputs inputs |>.after ops).seen := by
    intro v hv
    rw [Lifetimes.seen_after]
    exact h.args_inScope v (Arg.mem_filterMap_var?_iff.mpr hv)
  have ht := tracks_ofInputs shared hplain h.inScope jumpArgs
  obtain ⟨ht', code, hout, hemits, hfollows⟩ := Follows.of_run hrun h.straight ht 0
  rw [hplain] at hemits
  refine ⟨code, by simpa [Pass.ofShared] using hout, hemits, ?_⟩
  intro σ M ρ st jump label rest hop hjargs hop' hlargs
  refine hfollows σ M _ [jump] _ ρ ρ st (fun o x st => .fails o x st) (fun hyes => by cases hyes)
    (agrees_ofInputs inputs ρ) ?_
  intro ρ₁ ρ₁' st₁ _ hagrees
  have hlt : ∀ w, .var w ∈ jumpArgs.map q.forwarding.resolve → w.id < n := by
    intro w hw
    have hscope := (mem_scope_of_endArgs h hplain ht' (Lifetimes.seen_after _ ops) hw).1
    exact Nat.lt_of_lt_of_le (h.lt_of_mem_scope w hscope) hle
  obtain ⟨ρ₂, hcopies, hvals, -⟩ := hbuilt.run_copies ρ₁' hlt
  have hlabel : label.op.args.map (·.eval ρ₂) = jumpArgs.map (·.eval ρ₁) := by
    rw [hlargs, List.map_map, ← eval_resolve_args hagrees hargs ht'.unread, ← hvals]
    rfl
  have hstop : OpCode.jump.isStop = true := rfl
  have hstop' : OpCode.label.isStop = true := rfl
  rw [show copies.map Site.ofOp = copies.map (⟨·, 0, []⟩) from rfl, hcopies,
    M.run_cons_of_isStop s.memo (by rw [hop]; exact hstop),
    M.run_cons_of_isStop s.memo (by rw [hop']; exact hstop'), hlabel, hjargs, hop, hop']
  exact .stops (by decide) (by decide) (by simp)

end Loop

/-- The header that is built behind a preamble fits the inputs and takes over no copy. -/
theorem headerFits_of_preamble {jumpArgs : List Arg} {next : Nat}
    (h : WellFormedLoop inputs ops jumpArgs next) {shared : OptState} {q : Pass}
    {last : Option Operation} (hplain : s.renames = false)
    (hrun : runFrom (Pass.run s ops) (.ofShared shared) = (.ok last, q)) {vars : List Var}
    {copies : List Operation} {n n' : Nat}
    (hbuilt : ExtendsHeader inputs [] 0 n (jumpArgs.map q.forwarding.resolve) vars copies n')
    (hle : next ≤ n) (harity : inputs.length = (jumpArgs.map q.forwarding.resolve).length) :
    HeaderFits inputs vars ∧ (∀ v ∈ vars, v.id < n') ∧
      ∀ op ∈ ops, op.opcode = .sameAs → ∀ r, op.result = some r → ∀ v ∈ vars, v.id ≠ r.id := by
  have ht := tracks_ofInputs shared hplain h.inScope jumpArgs
  obtain ⟨ht', -⟩ := Follows.of_run hrun h.straight ht 0
  have hscope := fun w hw => mem_scope_of_endArgs (w := w) h hplain ht'
    (Lifetimes.seen_after _ ops) hw
  have hcopies := (get?_copy_of_run hrun h.straight ht).2
  have hfits : HeaderFits inputs vars :=
    .of_extendsHeader h.nodup (fun _ => subset_scopeAfter) h.lt_of_mem_scope h.eq_of_id_eq hbuilt hle
      harity fun w hw => (hscope w hw).1
  refine ⟨hfits, fun v hv => ?_, ?_⟩
  · obtain ⟨k, hk⟩ := List.mem_iff_getElem?.mp hv
    rcases hbuilt.cases_of_getElem? hk with ⟨hl, -⟩ | ⟨-, hlt⟩
    · have := h.lt_of_mem_scope v (hscope v (List.mem_of_getElem? hl)).1
      have := hbuilt.next_le
      omega
    · exact hlt
  · intro op hop hsame r hr v hv hid
    obtain ⟨k, hk⟩ := List.mem_iff_getElem?.mp hv
    rcases hbuilt.cases_of_getElem? hk with ⟨hl, -⟩ | ⟨hfresh, -⟩
    · -- a copy has been replaced, and the header takes over what has not
      have hnone := (hscope v (List.mem_of_getElem? hl)).2
      refine hcopies op hop hsame r hr ?_
      rwa [Forwarding.get?, hid] at hnone
    · have := h.results_lt r (List.mem_filterMap.mpr ⟨op, hop, hr⟩)
      omega

theorem fromLabel_header (inputs : List Var) (header : LoopHeader) {entry : EntryPoint}
    {pre : List Site} (rest : List Site) (hentry : entry ≠ header.entry)
    (hpre : ∀ e ∈ pre, e.op.opcode ≠ .label) (hcopies : ∀ op ∈ header.copies, op.opcode = .sameAs) :
    fromLabel (some (.target header.entry)) (Site.ofOp (.label inputs (.target entry)) ::
      (pre ++ (header.copies.map Site.ofOp ++ Site.ofOp header.label :: rest))) =
        Site.ofOp header.label :: rest := by
  have hbefore : ∀ e ∈ Site.ofOp (.label inputs (.target entry)) ::
      (pre ++ header.copies.map Site.ofOp), e.op.opcode = .label →
        e.op.descr ≠ some (.target header.entry) := by
    intro e he hlabel
    simp only [List.mem_cons, List.mem_append] at he
    rcases he with rfl | he | he
    · intro heq
      cases heq
      exact hentry rfl
    · exact absurd hlabel (hpre e he)
    · obtain ⟨op, hop, rfl⟩ := List.mem_map.mp he
      have hlabel : op.opcode = .label := hlabel
      rw [hcopies op hop] at hlabel
      cases hlabel
  have hfrom := fromLabel_append (Site.ofOp header.label) rest hbefore rfl
  rw [List.cons_append, List.append_assoc] at hfrom
  exact hfrom

/--
A loop with its first round peeled off does turn by turn what the recorded loop does round by
round, if no input is read once the variable that the header has taken for it is redefined.
-/
theorem unrolled_turns {driver : Nat} {opts : OptSet} {memo : PureMemo} {shared₁ shared₂ : OptState}
    {p₁ p₂ : Pass} {jumpArgs : List Arg} {descr : Descr} {state : ExportedState}
    {pre : List Operation} {result : Optimized} {header : LoopHeader} {entry : EntryPoint}
    (h : WellFormedLoop inputs ops jumpArgs shared₁.values.next)
    (hpre : runFrom (Pass.preamble { driver, opts, memo } inputs jumpArgs ops) (.ofShared shared₁) =
      (.ok (state, pre), p₁))
    (hvalues : shared₂.values = p₁.shared.values)
    (hpeeled : runFrom
      (Pass.peeled { driver, opts, memo } inputs (.jump jumpArgs descr) ops state)
      (.ofShared shared₂) = (.ok result, p₂))
    (hheader : result.header = some header) (hentry : entry ≠ header.entry)
    (hkeeps : KeepsInputs inputs header.vars ops jumpArgs) :
    RunsLike memo (.label inputs (.target entry) ::
      (pre ++ header.copies ++ [header.label] ++ result.operations)) entry inputs ops jumpArgs := by
  obtain ⟨last, hrun, hend, rfl⟩ := preamble_eq_ok hpre
  obtain ⟨header', q, r, hinto⟩ := peeled_eq_ok hpeeled
  cases hheader.symm.trans hinto.isHeader
  obtain ⟨last', hrun'⟩ := hinto.run
  have hle : shared₁.values.next ≤ shared₂.values.next := by
    rw [hvalues]
    exact Pass.next_le_of_run hrun h.straight
  have hbuilt := hinto.built
  rw [hend] at hbuilt
  obtain ⟨preSites, hpreOut, hpreEmits, hfirst⟩ :=
    sameLeg_of_preamble h (s := { driver, opts, memo }) rfl hrun hbuilt hle
  obtain ⟨hfits, hvars, huncopied⟩ := headerFits_of_preamble h rfl hrun hbuilt hle
    (by rw [hinto.arity, hend])
  have hstart : q.forwarding = headerTable inputs header.vars := hinto.start.1
  have ht : Tracks { driver, opts, memo, renames := true } q (.ofHeader inputs header.vars) ops
      jumpArgs := by
    have hnext := hbuilt.next_le
    refine hfits.tracks rfl hstart h.inScope hkeeps huncopied (fun v hv => ?_) hvars
      (fun op hop r hr => ?_)
    · have := h.inputs_lt v hv
      have hn : (Pass.ofShared shared₂).shared.values.next = shared₂.values.next := rfl
      omega
    · have hn : (Pass.ofShared shared₂).shared.values.next = shared₂.values.next := rfl
      have := h.results_lt r (List.mem_filterMap.mpr ⟨op, hop, hr⟩)
      omega
  obtain ⟨bodySites, hbodyOut, hbodyEmits, hnext⟩ := sameLeg_of_run hrun' h.straight ht
    hinto.start.2.2 fun v hv => h.args_inScope v (Arg.mem_filterMap_var?_iff.mpr hv)
  let closing := Operation.jump jumpArgs descr
  let jumpSite := Site.ofOp { r.forwarding.apply closing with descr := some (.target header.entry) }
  let start := Site.ofOp (.label inputs (.target entry))
  let label := Site.ofOp header.label
  let copySites := header.copies.map Site.ofOp
  refine ⟨start :: (preSites ++ (copySites ++ label :: (bodySites ++ [jumpSite]))), ?_, ?_, ?_⟩
  · have hout : r.out = bodySites.map (·.op) := by
      rw [hbodyOut, hinto.start.2.1]
      rfl
    rw [hpreOut, hinto.operations, hout]
    simp [start, label, copySites, jumpSite, closing, Site.ofOp, Function.comp_def]
  · have hcopies : ∀ op ∈ header.copies, op.isGuard = false := by
      intro op hop
      rw [Operation.isGuard, hbuilt.opcode_eq op hop]
      rfl
    have hbody : CompiledFrom ops (bodySites ++ [jumpSite]) :=
      (CompiledFrom.ofEmitted hbodyEmits).append (.cons_ofOp rfl .nil)
    exact .cons_ofOp rfl ((CompiledFrom.ofEmitted hpreEmits).append
      ((CompiledFrom.map_ofOp hcopies).append (.cons_ofOp rfl hbody)))
  · intro σ M base n vals st
    rw [sites_append]
    refine turns_eq_rounds jumpArgs.length (some (.target header.entry))
      (fun vals st => ?_) (fun vals hlen st => ?_) n vals st
    · -- the first turn runs the preamble
      have hfrom := fromLabel_cons start
        (preSites ++ (copySites ++ label :: (bodySites ++ [jumpSite]))) rfl
      change fromLabel (some (.target entry)) _ = _ at hfrom
      have hinputs : start.op.argVars = inputs := Operation.argVars_label inputs _
      rw [hfrom, Machine.leg, hinputs]
      exact hfirst σ M (base.bind inputs vals) st _ label _ rfl rfl rfl rfl
    · -- the others start at the header, and their jump leads to it again
      have hfrom := fromLabel_header inputs header (bodySites ++ [jumpSite]) hentry
        (hpreEmits.ne_label h.inScope) hbuilt.opcode_eq
      change fromLabel (some (.target header.entry)) _ = _ at hfrom
      have hvars' : label.op.argVars = header.vars := Operation.argVars_label header.vars _
      have hlen' : vals.length = header.vars.length := by
        rw [hlen]
        exact hinto.jumpArity
      rw [hfrom, Machine.leg, hvars']
      exact hnext σ M (base.bind inputs vals) (base.bind header.vars vals) st _ jumpSite
        (hstart ▸ hfits.agrees base hlen') rfl rfl rfl rfl

end HotLoop
