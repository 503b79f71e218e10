import HotLoop.Proofs.Cycles
import HotLoop.Proofs.Walk.Unrolled

/-!
# The tables of a walk

Every replacement that a walk makes leads to the end of a chain: to a constant, to the variable that
a copy comes from in the end, or to a fresh variable. No chain is made to lead back to where it
starts, as long as a number names one variable only, and as long as fresh numbers are new.
-/

namespace HotLoop

/-- The variables that an operation mentions. -/
def Operation.mentions (op : Operation) : List Var := op.uses ++ op.result.toList

/--
No number names two of the variables. Where results get fresh numbers these start at `first`, and
none of the variables has one.
-/
structure Distinguishes (renames : Bool) (known : List Var) (first : Nat) : Prop where
  eq_of_id : ∀ v ∈ known, ∀ w ∈ known, v.id = w.id → v = w
  lt : renames = true → ∀ v ∈ known, v.id < first

namespace Forwarding

/-- Replacements lead to known variables or to fresh ones, and do not go round in a circle. -/
structure Directed (renames : Bool) (known : List Var) (first next : Nat) (t : Forwarding) :
    Prop where
  grounded : t.Grounded
  values : ∀ v w, t.get? v = some (.var w) → w ∈ known ∨ renames = true ∧ first ≤ w.id
  below : renames = true → t.Below next
  first_le : renames = true → first ≤ next

namespace Directed

variable {renames : Bool} {known : List Var} {first next next' : Nat} {t : Forwarding}
  {r v w : Var} {a : Arg}

theorem empty (renames : Bool) (known : List Var) (first : Nat) :
    Directed renames known first first .empty where
  grounded := grounded_empty
  values _ _ hget := by cases hget
  below _ := ⟨fun _ hget => absurd rfl hget, fun _ _ hget => by cases hget⟩
  first_le _ := Nat.le_refl _

theorem mono (h : t.Directed renames known first next) (hle : next ≤ next') :
    t.Directed renames known first next' where
  grounded := h.grounded
  values := h.values
  below hren := (h.below hren).mono hle
  first_le hren := Nat.le_trans (h.first_le hren) hle

theorem of_resolve (h : t.Directed renames known first next) (hv : v ∈ known)
    (hw : t.resolve (.var v) = .var w) : w ∈ known ∨ renames = true ∧ first ≤ w.id :=
  resolve_of_values (P := fun w => w ∈ known ∨ renames = true ∧ first ≤ w.id) h.values (.inl hv) hw

theorem lt_of_resolve (h : t.Directed renames known first next)
    (hknown : Distinguishes renames known first) (hren : renames = true) (hv : v ∈ known)
    (hw : t.resolve (.var v) = .var w) : w.id < next :=
  (h.below hren).passes (Nat.lt_of_lt_of_le (hknown.lt hren v hv) (h.first_le hren))
    (h.grounded.passes_resolve hw)

/-- One more replacement, by the end of a chain that has another number. -/
theorem forward (h : t.Directed renames known first next) (ha : t.IsEnd a)
    (hvalue : ∀ w, a = .var w → w.id ≠ r.id ∧ (w ∈ known ∨ renames = true ∧ first ≤ w.id))
    (hlt : renames = true → r.id < next ∧ ∀ w, a = .var w → w.id < next) :
    (t.forward r a).Directed renames known first next where
  grounded := h.grounded.forward ha fun w hw => (hvalue w hw).1
  values u w hget := by
    rw [get?_forward] at hget
    split at hget
    · exact (hvalue w (Option.some.inj hget)).2
    · exact h.values u w hget
  below hren := (h.below hren).forward (hlt hren).1 (hlt hren).2
  first_le := h.first_le

theorem forward_const (h : t.Directed renames known first next) (c : Value)
    (hlt : renames = true → r.id < next) :
    (t.forward r (.const c)).Directed renames known first next :=
  h.forward (isEnd_const t c) nofun fun hren => ⟨hlt hren, nofun⟩

theorem forward_fresh (h : t.Directed renames known first next)
    (hknown : Distinguishes renames known first) (hren : renames = true) (hr : r ∈ known)
    (hv : v.id = next) : (t.forward r (.var v)).Directed renames known first (next + 1) := by
  have hle := h.first_le hren
  have hlt := hknown.lt hren r hr
  refine (h.mono (Nat.le_succ next)).forward ((h.below hren).isEnd (Nat.le_of_eq hv.symm)) ?_ ?_
  · rintro w ⟨⟩
    exact ⟨by omega, .inr ⟨hren, by omega⟩⟩
  · refine fun _ => ⟨by omega, ?_⟩
    rintro w ⟨⟩
    omega

theorem forward_resolve (h : t.Directed renames known first next)
    (hknown : Distinguishes renames known first) (hr : r ∈ known) (hv : v ∈ known) :
    (t.forward r (t.resolve (.var v))).Directed renames known first next := by
  have hend := h.grounded.isEnd_resolve (.var v)
  have hlt (hren : renames = true) : r.id < next :=
    Nat.lt_of_lt_of_le (hknown.lt hren r hr) (h.first_le hren)
  cases hw : t.resolve (.var v) with
  | const c => exact h.forward_const c hlt
  | var w =>
    have hvalue := h.of_resolve hv hw
    by_cases hself : w = r
    · rw [hself, Forwarding.forward, if_pos rfl]
      exact h
    · refine h.forward (hw ▸ hend) ?_ fun hren => ⟨hlt hren, ?_⟩
      · rintro u ⟨⟩
        refine ⟨fun hid => ?_, hvalue⟩
        rcases hvalue with hw' | ⟨hren, hfirst⟩
        · exact hself (hknown.eq_of_id w hw' r hr hid)
        · have := hknown.lt hren r hr
          omega
      · rintro u ⟨⟩
        exact h.lt_of_resolve hknown hren hv hw

end Directed

end Forwarding

namespace Pass

variable {s : PassSettings} {p q : Pass} {op op' : Operation} {known : List Var} {first : Nat}

/-- The replacements of `p` lead to known or fresh variables and have no cycle. -/
abbrev Directed (s : PassSettings) (known : List Var) (first : Nat) (p : Pass) : Prop :=
  p.forwarding.Directed s.renames known first p.shared.values.next

theorem mem_mentions_of_result {r : Var} (h : op.result = some r) : r ∈ op.mentions :=
  List.mem_append_right _ (by rw [h]; exact List.mem_singleton_self r)

theorem result_of_keep {guarded : Bool} {t : Forwarding} {r : Var}
    (hfate : fate s guarded (t.apply op) = .ok (.keep op')) (hr : op'.result = some r) :
    op.result = some r := by
  rcases keep_cases hfate with ⟨rfl, -, -⟩ | ⟨-, rfl⟩
  · exact hr
  · cases hr

theorem Stepped.directed (h : Stepped s p q op) (hknown : Distinguishes s.renames known first)
    (hop : op.mentions ⊆ known) (hp : p.Directed s known first) : q.Directed s known first := by
  have hnext := h.next_le
  have huse {v : Var} (hv : .var v ∈ op.args) : v ∈ known :=
    hop (List.mem_append_left _ (mem_uses_of_mem_args hv))
  cases h with
  | drop _ heq =>
    obtain ⟨deps, rfl⟩ := heq
    exact hp
  | replace r a hfate heq =>
    obtain ⟨deps, rfl⟩ := heq
    obtain ⟨hdef, hvalue⟩ := replace_cases hfate
    have hr : r ∈ known := hop (mem_mentions_of_result (result_of_defines? hdef))
    have hconst (c : Value) : (p.forwarding.forward r (.const c)).Directed s.renames known first
        p.shared.values.next :=
      hp.forward_const c fun hren => Nat.lt_of_lt_of_le (hknown.lt hren r hr) (hp.first_le hren)
    rcases hvalue with ⟨c, -, rfl⟩ | ⟨-, hhead⟩
    · exact hconst c
    · obtain ⟨b, hb, rfl⟩ := List.mem_map.mp (List.mem_of_mem_head? hhead)
      cases b with
      | const c => exact (p.forwarding.resolve_const c).symm ▸ hconst c
      | var v => exact hp.forward_resolve hknown hr (huse hb)
  | keep op' e t hfate hkeeps =>
    obtain ⟨deps, hkeeps⟩ := hkeeps
    have ht : t.Directed s.renames known first q.shared.values.next := by
      rcases hkeeps.renamed with ⟨hren, r, v, hr, -, hv, rfl, hnew⟩ | ⟨-, -, rfl, hvalues⟩
      · rw [hnew]
        exact hp.forward_fresh hknown hren (hop (mem_mentions_of_result (result_of_keep hfate hr))) hv
      · rw [hvalues]
        exact hp
    unfold Directed
    rw [hkeeps.forwarding]
    rcases learn_cases t op' with heq | ⟨v, c, -, hargs, heq⟩
    · rw [heq]
      exact ht
    · rw [heq]
      refine ht.forward_const c fun hren => ?_
      -- the guard compares the end of the chain of one of its arguments
      rcases keep_cases hfate with ⟨rfl, -, -⟩ | ⟨-, rfl⟩
      · obtain ⟨b, hb, hv⟩ := List.mem_map.mp (hargs ▸ List.mem_cons_self .. :
          Arg.var v ∈ (p.forwarding.apply op).args)
        obtain ⟨u, rfl⟩ := Forwarding.exists_var_of_resolve hv
        exact Nat.lt_of_lt_of_le (hp.lt_of_resolve hknown hren (huse hb) hv) hnext
      · cases hargs

section InForce

/-- The table `t` also replaces the result of the operation, by a fresh variable. -/
def RenamesResult (s : PassSettings) (p : Pass) (op : Operation) (t : Forwarding) : Prop :=
  ∃ r v values, s.renames = true ∧ op.result = some r ∧
    p.shared.values.fresh r.kind = .ok (v, values) ∧ t = p.forwarding.forward r (.var v)

/--
The table `t` is in force at some point of the walk over the operations that goes on from `p`:
between two operations, or while an operation is put out whose result has just been renamed.
-/
inductive InForce (s : PassSettings) : Pass → List Operation → Forwarding → Prop where
  | here (p : Pass) (ops : List Operation) : InForce s p ops p.forwarding
  | renamed {p : Pass} {op op' : Operation} {rest : List Operation} {t : Forwarding}
      (hfinal : op.isFinal = false)
      (hfate : fate s p.guarded (p.forwarding.apply op) = .ok (.keep op'))
      (hrenames : RenamesResult s p op' t) : InForce s p (op :: rest) t
  | later {p q : Pass} {op : Operation} {rest : List Operation} {t : Forwarding}
      (hfinal : op.isFinal = false) (hstep : runFrom (step s op) p = (.ok (), q))
      (h : InForce s q rest t) : InForce s p (op :: rest) t

/-- What a walk replaces at any point has no cycle, if all variables that it meets are known. -/
theorem InForce.grounded {ops : List Operation} {t : Forwarding} (h : InForce s p ops t)
    (hknown : Distinguishes s.renames known first) (hops : ∀ op ∈ ops, op.mentions ⊆ known)
    (hp : p.Directed s known first) : t.Grounded := by
  induction h with
  | here => exact hp.grounded
  | @renamed p op op' rest t hfinal hfate hrenames =>
    obtain ⟨r, v, values, hren, hr, hfresh, rfl⟩ := hrenames
    have hr : r ∈ known :=
      hops op (List.mem_cons_self ..) (mem_mentions_of_result (result_of_keep hfate hr))
    have hv : v.id = p.shared.values.next := by rw [(ValueIds.fresh_eq_ok hfresh).1]
    exact (hp.forward_fresh hknown hren hr hv).grounded
  | @later p q op rest t hfinal hstep _ ih =>
    exact ih (fun o ho => hops o (List.mem_cons_of_mem _ ho))
      ((step_eq_ok hstep).directed hknown (hops op (List.mem_cons_self ..)) hp)

end InForce

section Completeness

private theorem forwarding_bind {α β : Type} {x : PassM Pass α} {f : α → PassM Pass β}
    (h : ∀ a q, OnlyShares (f a) q) :
    (runFrom (x >>= f) p).2.forwarding = (runFrom x p).2.forwarding := by
  rw [runFrom_bind]
  rcases runFrom x p with ⟨_ | a, q⟩
  · rfl
  · exact (h a q).1.forwarding_eq

private theorem exists_fresh_of_ok {k : Kind} {v : Var} (h : runFrom (fresh k) p = (.ok v, q)) :
    ∃ values, p.shared.values.fresh k = .ok (v, values) ∧ q.forwarding = p.forwarding := by
  simp only [fresh, runFrom_bind_eq_ok, runFrom_get, Prod.mk.injEq, Except.ok.injEq] at h
  obtain ⟨u, p', ⟨rfl, rfl⟩, h⟩ := h
  split at h
  · rename_i w values hfresh
    simp only [runFrom_bind_eq_ok, runFrom_set, runFrom_pure, Prod.mk.injEq, Except.ok.injEq] at h
    obtain ⟨_, _, ⟨-, rfl⟩, rfl, rfl⟩ := h
    exact ⟨values, hfresh, rfl⟩
  · cases h

private theorem finish_eq_error {recorded : List (Option Var)} {e : Rejection}
    (h : runFrom (if op.isGuard then do
        let o ← finishGuard s op recorded
        modify fun p => { p with out := p.out ++ [o] }
        match o.learned? with
          | some (v, c) => forward v c
          | _ => pure ()
      else do
        let o ← pure op
        modify fun p => { p with out := p.out ++ [o] }
        match o.learned? with
          | some (v, c) => forward v c
          | _ => pure ()) p = (.error e, q)) : q.forwarding = p.forwarding := by
  split at h
  · rcases runFrom_bind_eq_error.mp h with h | ⟨o, u, -, h⟩
    · have hsame := (finishGuard_onlyShares (s := s) (p := p) op recorded).1.forwarding_eq
      rwa [h] at hsame
    · cases (runFrom_append o).symm.trans h
  · rcases runFrom_bind_eq_error.mp h with h | ⟨o, u, -, h⟩
    · cases h
    · cases (runFrom_append o).symm.trans h

private theorem keep_eq_error {recorded : List (Option Var)} {e : Rejection}
    (h : runFrom (keep s op recorded) p = (.error e, q)) :
    q.forwarding = p.forwarding ∨ RenamesResult s p op q.forwarding := by
  simp only [keep] at h
  split at h
  · rename_i r hren hr
    rcases runFrom_bind_eq_error.mp h with h | ⟨v, u, hfresh, h⟩
    · have hsame := (fresh_onlyShares (p := p) r.kind).1.forwarding_eq
      rw [h] at hsame
      exact .inl hsame
    · obtain ⟨values, hvalues, hsame⟩ := exists_fresh_of_ok hfresh
      simp only [runFrom_bind, runFrom_forward, runFrom_pure] at h
      refine .inr ⟨r, v, values, hren, hr, hvalues, ?_⟩
      rw [finish_eq_error h, hsame]
  · exact .inl (finish_eq_error h)

private theorem step_eq_error {e : Rejection} (h : runFrom (step s op) p = (.error e, q)) :
    q.forwarding = p.forwarding ∨ ∃ op', RenamesResult s p op' q.forwarding ∧
      fate s p.guarded (p.forwarding.apply op) = .ok (.keep op') := by
  obtain ⟨deps, -, hstep⟩ := runFrom_step (s := s) (p := p) op
  rw [hstep, dispatch] at h
  split at h
  · cases h
    exact .inl rfl
  · cases h
  · cases h
  · rename_i op' hfate
    split at h
    · rcases runFrom_bind_eq_error.mp h with h | ⟨_, u, hmodify, h⟩
      · cases h
      · cases hmodify
        exact (keep_eq_error h).imp_right fun hrenames => ⟨op', hrenames, hfate⟩
    · exact (keep_eq_error h).imp_right fun hrenames => ⟨op', hrenames, hfate⟩

theorem inForce_run (ops : List Operation) (p : Pass) :
    InForce s p ops (runFrom (run s ops) p).2.forwarding := by
  induction ops generalizing p with
  | nil => exact .here p []
  | cons op ops ih =>
    cases hfinal : op.isFinal with
    | true =>
      rw [run, if_pos hfinal]
      exact .here p (op :: ops)
    | false =>
      rw [run, if_neg (by rw [hfinal]; exact Bool.false_ne_true), runFrom_bind]
      rcases hstep : runFrom (step s op) p with ⟨_ | _, q⟩
      · rcases step_eq_error hstep with hsame | ⟨op', hrenames, hfate⟩
        · exact hsame ▸ .here p (op :: ops)
        · exact .renamed hfinal hfate hrenames
      · exact .later hfinal hstep (ih q)

private theorem forwarding_simple (inputs : List Var) (ops : List Operation) :
    (runFrom (simple s inputs ops) p).2.forwarding = (runFrom (run s ops) p).2.forwarding :=
  forwarding_bind fun _ _ => .get_bind (.pure _)

private theorem forwarding_preamble (inputs : List Var) (endArgs : List Arg)
    (ops : List Operation) :
    (runFrom (preamble s inputs endArgs ops) p).2.forwarding =
      (runFrom (run s ops) p).2.forwarding :=
  forwarding_bind fun _ _ => .get_bind (.pure _)

private theorem forwarding_bridge (registry : Registry) (inputs : List Var) (ops : List Operation)
    (anyEntry : Bool) :
    (runFrom (bridge s registry inputs ops anyEntry) p).2.forwarding =
      (runFrom (run s ops) p).2.forwarding := by
  refine forwarding_bind fun last q => ?_
  split
  · split
    · refine .get_bind ?_
      dsimp only
      split
      · exact .pure _
      · exact .pure _
    · exact .throw id
  · exact .throw id

private theorem forwarding_peeled (inputs : List Var) (closing : Operation) (ops : List Operation)
    (state : ExportedState) (hp : p.forwarding = .empty) :
    (runFrom (peeled s inputs closing ops state) p).2.forwarding = .empty ∨
      ∃ vars copies q, runFrom (header inputs state.endArgs) p = (.ok (vars, copies), q) ∧
        inputs.length = state.endArgs.length ∧
        (runFrom (peeled s inputs closing ops state) p).2.forwarding =
          (runFrom (run { s with renames := true } ops)
            { q with forwarding := headerTable inputs vars }).2.forwarding := by
  unfold peeled
  split
  · split
    · exact .inl hp
    · rename_i harity
      dsimp only
      rw [runFrom_bind]
      have hsame := (extendHeaders_goes_of_fresh (fun k q => fresh_onlyShares (p := q) k) inputs
        state.endArgs.zipIdx ([], []) p).1.forwarding_eq
      unfold header
      rcases hheader : runFrom (state.endArgs.zipIdx.foldlM (extendHeader inputs) ([], [])) p with
        ⟨_ | ⟨vars, copies⟩, q⟩
      · rw [hheader] at hsame
        exact .inl (hsame.trans hp)
      · rw [hheader] at hsame
        refine .inr ⟨vars, copies, q, rfl, Decidable.not_not.mp harity, ?_⟩
        dsimp only
        rw [runFrom_bind, runFrom_modify]
        dsimp only
        rw [forwarding_bind fun last r => ?_]
        · rw [hsame, hp]
          rfl
        · refine .get_bind ?_
          split
          · exact .throw_bind id
          · exact .bind (.set ⟨_, rfl⟩) fun _ _ _ => .pure _
  · exact .inl hp

end Completeness

end Pass

namespace HeaderTakes

variable {inputs vars : List Var}

/-- The first variables of a header are a header for the first inputs. -/
theorem take (h : HeaderTakes inputs vars) (n : Nat) :
    HeaderTakes (inputs.take n) (vars.take n) where
  length := by rw [List.length_take, List.length_take, h.length]
  own k m v u hv hu hid := by
    rw [List.getElem?_take] at hv hu
    split at hv
    · split at hu
      · exact h.own k m v u hv hu hid
      · cases hu
    · cases hv

end HeaderTakes

namespace PassKind

variable {s : PassSettings} {shared : OptState} {inputs : List Var} {ops : List Operation}
  {kind : PassKind} {t : Forwarding}

/-- Does the pass start at a header, and give fresh numbers to all results? -/
def isPeeled : PassKind → Bool
  | peeled _ _ => true
  | _ => false

/-- The variables that can meet in a table of the pass. -/
def mentions (kind : PassKind) (inputs : List Var) (ops : List Operation) : List Var :=
  ops.flatMap Operation.mentions ++
    match kind with
    | peeled _ state => inputs ++ state.endArgs.filterMap Arg.var?
    | _ => []

theorem mentions_subset {op : Operation} (hop : op ∈ ops) :
    op.mentions ⊆ kind.mentions inputs ops :=
  fun _ hv => List.mem_append_left _ (List.mem_flatMap.mpr ⟨op, hop, hv⟩)

/-- The table `t` is in force at some point while a trace is optimized. -/
inductive InForce (s : PassSettings) (shared : OptState) (inputs : List Var)
    (ops : List Operation) : PassKind → Forwarding → Prop where
  | initial (kind : PassKind) : InForce s shared inputs ops kind .empty
  | walk {kind : PassKind} {t : Forwarding} (hkind : kind.isPeeled = false)
      (h : Pass.InForce s (.ofShared shared) ops t) : InForce s shared inputs ops kind t
  | header {closing : Operation} {state : ExportedState} {vars : List Var}
      {copies : List Operation} {p : Pass} (n : Nat)
      (hheader : runFrom (Pass.header inputs state.endArgs) (.ofShared shared) =
        (.ok (vars, copies), p)) (harity : inputs.length = state.endArgs.length) :
      InForce s shared inputs ops (.peeled closing state) (.rename .empty ((inputs.zip vars).take n))
  | peeled {closing : Operation} {state : ExportedState} {vars : List Var}
      {copies : List Operation} {p : Pass} {t : Forwarding}
      (hheader : runFrom (Pass.header inputs state.endArgs) (.ofShared shared) =
        (.ok (vars, copies), p)) (harity : inputs.length = state.endArgs.length)
      (h : Pass.InForce { s with renames := true }
        { p with forwarding := headerTable inputs vars } ops t) :
      InForce s shared inputs ops (.peeled closing state) t

theorem inForce_optimize (kind : PassKind) (s : PassSettings) (registry : Registry)
    (shared : OptState) (inputs : List Var) (ops : List Operation) :
    kind.InForce s shared inputs ops
      (runFrom (kind.optimize s registry inputs ops) (.ofShared shared)).2.forwarding := by
  have hwalk := Pass.inForce_run (s := s) ops (.ofShared shared)
  cases kind with
  | simple => exact .walk rfl ((Pass.forwarding_simple ..).symm ▸ hwalk)
  | bridge anyEntry => exact .walk rfl ((Pass.forwarding_bridge ..).symm ▸ hwalk)
  | preamble endArgs =>
    dsimp only [optimize]
    split
    · rw [Pass.forwarding_bind fun _ _ => .pure _]
      exact .walk rfl ((Pass.forwarding_preamble ..).symm ▸ hwalk)
    · exact .walk rfl ((Pass.forwarding_simple ..).symm ▸ hwalk)
  | peeled closing state =>
    dsimp only [optimize]
    split
    · rcases Pass.forwarding_peeled (s := s) (p := .ofShared shared) inputs closing ops state rfl with
        hempty | ⟨vars, copies, q, hheader, harity, hlast⟩
      · exact hempty ▸ .initial _
      · exact hlast ▸ .peeled hheader harity (Pass.inForce_run ops _)
    · exact .initial _

private theorem directed_headerTable {closing : Operation} {state : ExportedState}
    {vars : List Var} {copies : List Operation} {p : Pass}
    (hknown : Distinguishes true (mentions (.peeled closing state) inputs ops) shared.values.next)
    (hheader : runFrom (Pass.header inputs state.endArgs) (.ofShared shared) =
      (.ok (vars, copies), p)) (harity : inputs.length = state.endArgs.length) :
    HeaderTakes inputs vars ∧ (headerTable inputs vars).Directed true
      (mentions (.peeled closing state) inputs ops) shared.values.next p.shared.values.next := by
  have hinputs : inputs ⊆ mentions (.peeled closing state) inputs ops := fun _ hv =>
    List.mem_append_right _ (List.mem_append_left _ hv)
  have hend {w : Var} (hw : .var w ∈ state.endArgs) :
      w ∈ mentions (.peeled closing state) inputs ops :=
    List.mem_append_right _ (List.mem_append_right _ (Arg.mem_filterMap_var?_iff.mpr hw))
  obtain ⟨vs, cs, rfl, rfl, hbuilt, values, rfl⟩ := extendsHeader_of_foldlM hheader
  have hnext := hbuilt.next_le
  have hlt := hknown.lt rfl
  have htakes : HeaderTakes inputs vars :=
    .of_extendsHeader (fun v hv => hlt v (hinputs hv)) hbuilt (Nat.le_refl _) harity
      fun k u w hu hw => hknown.eq_of_id u (hinputs (List.mem_of_getElem? hu)) w
        (hend (List.mem_of_getElem? hw))
  have hvars : ∀ v ∈ vars, (v ∈ mentions (.peeled closing state) inputs ops ∨
      true = true ∧ shared.values.next ≤ v.id) ∧ v.id < values.next := by
    intro v hv
    obtain ⟨k, hk⟩ := List.mem_iff_getElem?.mp hv
    rcases hbuilt.cases_of_getElem? hk with ⟨hl, -⟩ | ⟨hfresh, hbelow⟩
    · have hv := hend (List.mem_of_getElem? hl)
      exact ⟨.inl hv, Nat.lt_of_lt_of_le (hlt v hv) hnext⟩
    · exact ⟨.inr ⟨rfl, hfresh⟩, hbelow⟩
  refine ⟨htakes, htakes.grounded, fun v w hget => ?_, fun _ => ?_, fun _ => hnext⟩
  · obtain ⟨k, u, w', -, hw', -, heq, -⟩ := HeaderTakes.exists_of_get? hget
    cases heq
    exact (hvars w (List.mem_of_getElem? hw')).1
  · exact HeaderTakes.below (fun v hv => Nat.lt_of_lt_of_le (hlt v (hinputs hv)) hnext)
      fun v hv => (hvars v hv).2

theorem InForce.grounded (h : kind.InForce s shared inputs ops t) (hplain : s.renames = false)
    (hknown : Distinguishes kind.isPeeled (kind.mentions inputs ops) shared.values.next) :
    t.Grounded := by
  cases h with
  | initial => exact Forwarding.grounded_empty
  | walk hkind h =>
    rw [hkind, ← hplain] at hknown
    exact h.grounded hknown (fun op hop => mentions_subset hop) (.empty _ _ _)
  | header n hheader harity =>
    obtain ⟨htakes, -⟩ := directed_headerTable hknown hheader harity
    rw [List.zip_eq_zipWith, List.take_zipWith, ← List.zip_eq_zipWith]
    exact (htakes.take n).grounded
  | peeled hheader harity h =>
    obtain ⟨-, hdirected⟩ := directed_headerTable hknown hheader harity
    exact h.grounded hknown (fun op hop => mentions_subset hop) hdirected

/--
In whichever of the four ways a trace is optimized, no table that is in force has a cycle, nor has
the table that is left when the pass ends. And a table without a cycle resolves everything once and
for all, however long its chains are.
-/
theorem tables_acyclic :
    (∀ (kind : PassKind) (s : PassSettings) (registry : Registry) (shared : OptState)
      (inputs : List Var) (ops : List Operation), s.renames = false →
      Distinguishes kind.isPeeled (kind.mentions inputs ops) shared.values.next →
        (∀ t, kind.InForce s shared inputs ops t → t.Acyclic) ∧
          (runFrom (kind.optimize s registry inputs ops) (.ofShared shared)).2.forwarding.Acyclic) ∧
      ∀ t : Forwarding, t.Acyclic → t.Normalizes := by
  refine ⟨fun kind s registry shared inputs ops hplain hknown => ?_,
    fun t => Forwarding.Acyclic.normalizes⟩
  have hacyclic (t : Forwarding) (ht : kind.InForce s shared inputs ops t) : t.Acyclic :=
    (ht.grounded hplain hknown).acyclic
  exact ⟨hacyclic, hacyclic _ (inForce_optimize kind s registry shared inputs ops)⟩

/--
The header takes the result `v` for the input `y`. When the result gets a fresh number in the second
walk, the chain of the input goes on there.
-/
theorem tables_acyclic_goingOn :
    let x : Var := ⟨0, .int⟩
    let y : Var := ⟨1, .int⟩
    let u : Var := ⟨2, .int⟩
    let v : Var := ⟨3, .int⟩
    let w : Var := ⟨4, .int⟩
    let ops : List Operation := [
      { opcode := .sameAs, args := [.var x], result := some u },
      { opcode := .intAdd, args := [.var u, .var y], result := some v },
      { opcode := .sameAs, args := [.var v], result := some w }]
    let closing : Operation := .jump [.var y, .var w] (.cell ⟨0, 0⟩)
    let kind : PassKind := .peeled closing { inputs := [x, y], endArgs := [.var y, .var v] }
    let s : PassSettings := { driver := 0, opts := .all }
    let shared : OptState := { values := ⟨5⟩, counter := .ofBits 4 }
    let table := (runFrom (kind.optimize s {} [x, y] ops) (.ofShared shared)).2.forwarding
    (s.renames = false ∧
      Distinguishes kind.isPeeled (kind.mentions [x, y] ops) shared.values.next) ∧
      (table.Acyclic ∧ table.Normalizes) ∧
      table.get? y = some (.var v) ∧ table.get? v = some (.var ⟨6, .int⟩) ∧
      table.resolve (.var y) = .var ⟨6, .int⟩ := by
  intro x y u v w ops closing kind s shared table
  have hknown : Distinguishes kind.isPeeled (kind.mentions [x, y] ops) shared.values.next :=
    ⟨by decide, by decide⟩
  obtain ⟨hpass, hnormal⟩ := tables_acyclic
  have hacyclic : table.Acyclic := (hpass kind s {} shared [x, y] ops rfl hknown).2
  exact ⟨⟨rfl, hknown⟩, ⟨hacyclic, hnormal table hacyclic⟩, by rfl, by rfl, by rfl⟩

/--
What acyclic tables need. A result may not have a number that is fresh: here `i6` and `i5` are
renamed to each other. Nor may an input: here the header has the same two numbers the other way
round. And no number may name two variables: the header takes `p0` for `i0` as it is. A table
without a cycle resolves arguments only: where a constant would have to stand in a fail argument,
the variable that leads to it is kept.
-/
theorem tables_cyclic_takenNumbers :
    let x : Var := ⟨0, .int⟩
    let u : Var := ⟨6, .int⟩
    let v : Var := ⟨5, .int⟩
    let ops : List Operation := [
      { opcode := .intAdd, args := [.var x, .int 1], result := some u },
      { opcode := .intSub, args := [.var x, .int 1], result := some v }]
    let shared (next : Nat) : OptState := { values := ⟨next⟩, counter := .ofBits 4 }
    let s : PassSettings := { driver := 0, opts := .all }
    let table (next : Nat) (inputs : List Var) (endArgs : List Arg) (ops : List Operation)
        (args : List Arg) :=
      let kind : PassKind := .peeled (.jump args (.cell ⟨0, 0⟩)) { inputs, endArgs }
      (runFrom (kind.optimize s {} inputs ops) (.ofShared (shared next))).2.forwarding
    (Scoped [x] ops ∧ ¬ (table 5 [x] [.var ⟨1, .int⟩] ops [.var u]).Acyclic ∧
      (table 5 [x] [.var ⟨1, .int⟩] ops [.var u]).resolve (.var u) = .var u) ∧
      ¬ (table 5 [u, v] [.int 0, .int 0] [] [.var u, .var v]).Acyclic ∧
      ¬ (table 2 [x] [.var ⟨0, .ref⟩] [] [.var x]).Acyclic ∧
      (let known := Forwarding.empty.forward x (.int 7)
        let guard : Operation := { opcode := .guardOverflow, failArgs := some [some x] }
        known.Acyclic ∧ (known.apply guard).failSlots = [some x] ∧ known.get? x ≠ none) := by
  intro x u v ops shared s table
  have hcycle {t : Forwarding} {a : Arg} {w : Var} (hw : t.resolve a = .var w)
      (hget : t.get? w ≠ none) : ¬ t.Acyclic := fun h =>
    hget (Forwarding.isEnd_var.mp (hw ▸ h.isEnd_resolve a))
  have hround : (table 5 [x] [.var ⟨1, .int⟩] ops [.var u]).resolve (.var u) = .var u := by rfl
  have hknown : (Forwarding.empty.forward x (.int 7)).Grounded :=
    Forwarding.grounded_empty.forward (Forwarding.isEnd_const _ _) nofun
  refine ⟨⟨by decide, hcycle hround (by decide), hround⟩, ?_, ?_, hknown.acyclic, by decide,
    by decide⟩
  · exact hcycle (w := v) (a := .var u) (by rfl) (by decide)
  · exact hcycle (w := ⟨0, .ref⟩) (a := .var x) (by rfl) (by decide)

end PassKind

end HotLoop
