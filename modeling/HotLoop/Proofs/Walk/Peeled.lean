import HotLoop.Proofs.Execution.Turns
import HotLoop.Proofs.Walk.Header
import HotLoop.Proofs.Walk.Simulation

/-!
# The second walk over a loop

The second walk starts at the header with the inputs replaced by the variables of the header. It
preserves the meaning of one round as long as no input is read behind an operation that redefines
the variable that the header has taken for it.
-/

namespace HotLoop

/-- Header variables for the inputs of a loop, which may repeat. -/
structure HeaderTakes (inputs vars : List Var) : Prop where
  length : vars.length = inputs.length
  /-- The only input that the header may contain is the one that is replaced. -/
  own : ∀ (k m : Nat) (h u : Var), vars[k]? = some h → inputs[m]? = some u → u.id = h.id →
    m = k ∧ u = h

structure HeaderFits (inputs vars : List Var) : Prop extends HeaderTakes inputs vars where
  nodup_inputs : (inputs.map (·.id)).Nodup
  nodup_header : (vars.map (·.id)).Nodup

theorem index_eq_of_id_eq {vs : List Var} (h : (vs.map (·.id)).Nodup) {k m : Nat} {v w : Var}
    (hv : vs[k]? = some v) (hw : vs[m]? = some w) (hid : v.id = w.id) : k = m := by
  have hk : k < (vs.map (·.id)).length := by
    rw [List.length_map]
    exact (List.getElem?_eq_some_iff.mp hv).1
  refine (List.getElem?_inj hk h).mp ?_
  rw [List.getElem?_map, List.getElem?_map, hv, hw]
  exact congrArg some hid

/-- The replacements that the second walk starts with. -/
def headerTable (inputs vars : List Var) : Forwarding := Forwarding.empty.rename (inputs.zip vars)

def Lifetimes.ofHeader (inputs vars : List Var) : Lifetimes where
  seen := inputs
  stale := []
  held i := (((inputs.zip vars).find? fun e => e.2.id == i).map fun e => e.1.id).toList

namespace HeaderTakes

variable {inputs vars : List Var}

theorem exists_header (h : HeaderTakes inputs vars) {k : Nat} {u : Var} (hu : inputs[k]? = some u) :
    ∃ v, vars[k]? = some v := by
  have hk := (List.getElem?_eq_some_iff.mp hu).1
  rw [← h.length] at hk
  exact ⟨vars[k], List.getElem?_eq_getElem hk⟩

theorem mem_zip {k : Nat} {u v : Var} (hu : inputs[k]? = some u) (hv : vars[k]? = some v) :
    (u, v) ∈ inputs.zip vars :=
  List.mem_iff_getElem?.mpr ⟨k, List.getElem?_zip_eq_some.mpr ⟨hu, hv⟩⟩

theorem exists_index {e : Var × Var} (he : e ∈ inputs.zip vars) :
    ∃ k : Nat, inputs[k]? = some e.1 ∧ vars[k]? = some e.2 := by
  obtain ⟨k, hk⟩ := List.mem_iff_getElem?.mp he
  exact ⟨k, List.getElem?_zip_eq_some.mp hk⟩

/-- Nothing but inputs is replaced, each by a variable that the header has for it. -/
theorem exists_of_get? {w : Var} {a : Arg} (hw : (headerTable inputs vars).get? w = some a) :
    ∃ (k : Nat) (u v : Var), inputs[k]? = some u ∧ vars[k]? = some v ∧ u.id = w.id ∧
      a = .var v ∧ v ≠ u := by
  rcases Forwarding.exists_of_get?_rename hw with hnone | ⟨e, he, hid, ha, hne⟩
  · cases hnone
  · obtain ⟨k, hk, hk'⟩ := exists_index he
    exact ⟨k, e.1, e.2, hk, hk', hid, ha, hne⟩

theorem get?_header (h : HeaderTakes inputs vars) {k : Nat} {v : Var} (hv : vars[k]? = some v) :
    (headerTable inputs vars).get? v = none := by
  cases hget : (headerTable inputs vars).get? v with
  | none => rfl
  | some a =>
    obtain ⟨m, u, v', hu, hv', hid, -, hne⟩ := exists_of_get? hget
    obtain ⟨rfl, rfl⟩ := h.own k m v u hv hu hid
    exact absurd (Option.some.inj (hv'.symm.trans hv)) hne

theorem isEnd_of_get? (h : HeaderTakes inputs vars) (w : Var) (a : Arg)
    (hw : (headerTable inputs vars).get? w = some a) : (headerTable inputs vars).IsEnd a := by
  obtain ⟨k, u, v, -, hv, -, rfl, -⟩ := exists_of_get? hw
  exact Forwarding.isEnd_var.mpr (h.get?_header hv)

theorem grounded (h : HeaderTakes inputs vars) : (headerTable inputs vars).Grounded :=
  Forwarding.grounded_of_isEnd (Forwarding.distinct_rename Table.distinct_empty) h.isEnd_of_get?

theorem resolve_input (h : HeaderTakes inputs vars) {u : Var} (hu : u ∈ inputs) :
    ∃ e ∈ inputs.zip vars, e.1.id = u.id ∧
      (headerTable inputs vars).resolve (.var u) = .var e.2 := by
  obtain ⟨k, hk⟩ := List.mem_iff_getElem?.mp hu
  obtain ⟨v, hv⟩ := h.exists_header hk
  cases hget : (headerTable inputs vars).get? u with
  | none =>
    have hsame : v = u := by
      by_contra hne
      exact Forwarding.get?_rename_ne_none (.inr ⟨(u, v), mem_zip hk hv, rfl, hne⟩) hget
    refine ⟨(u, v), mem_zip hk hv, rfl, ?_⟩
    rw [Forwarding.resolve_of_get?_none hget, hsame]
  | some a =>
    obtain ⟨m, u', w, hu', hw, hid, rfl, -⟩ := exists_of_get? hget
    have hnext : (headerTable inputs vars).next (.var u) = .var w := by
      rw [Forwarding.next, hget, Option.getD_some]
    have hend := Forwarding.isEnd_var.mpr (h.get?_header hw)
    refine ⟨(u', w), mem_zip hu' hw, hid, ?_⟩
    rw [← h.grounded.resolve_iterate 1, Function.iterate_one, hnext, Forwarding.resolve_of_isEnd hend]

theorem eq_of_mem_zip (hnodup : (inputs.map (·.id)).Nodup) {k : Nat} {u v : Var}
    (hu : inputs[k]? = some u) (hv : vars[k]? = some v) {e : Var × Var} (he : e ∈ inputs.zip vars)
    (hid : e.1.id = u.id) : e = (u, v) := by
  obtain ⟨m, hm, hm'⟩ := exists_index he
  obtain rfl := index_eq_of_id_eq hnodup hm hu hid
  exact Prod.ext (Option.some.inj (hm.symm.trans hu)) (Option.some.inj (hm'.symm.trans hv))

/-- The input at an index is replaced by the variable that the header has there. -/
theorem resolve_getElem? (h : HeaderTakes inputs vars) (hnodup : (inputs.map (·.id)).Nodup)
    {k : Nat} {u v : Var} (hu : inputs[k]? = some u) (hv : vars[k]? = some v) :
    (headerTable inputs vars).resolve (.var u) = .var v := by
  obtain ⟨e, he, hid, hresolve⟩ := h.resolve_input (List.mem_of_getElem? hu)
  rwa [eq_of_mem_zip hnodup hu hv he hid] at hresolve

theorem passes_input (h : HeaderTakes inputs vars) {u : Var} {i : Nat}
    (hi : (headerTable inputs vars).Passes (.var u) i) :
    i = u.id ∨ ∃ e ∈ inputs.zip vars, e.1.id = u.id ∧ e.2.id = i := by
  rcases Forwarding.eq_or_of_passes h.isEnd_of_get? hi with hi | ⟨w, hw, hid⟩
  · exact .inl hi
  · obtain ⟨k, u', v, hu', hv, hid', heq, -⟩ := exists_of_get? hw
    cases heq
    exact .inr ⟨(u', w), mem_zip hu' hv, hid', hid⟩

/-- Inputs and header have given their numbers away. -/
theorem below {n : Nat} (hinputs : ∀ v ∈ inputs, v.id < n) (hvars : ∀ v ∈ vars, v.id < n) :
    (headerTable inputs vars).Below n := by
  refine ⟨fun w hw => ?_, fun w v hw => ?_⟩
  · obtain ⟨a, ha⟩ := Option.ne_none_iff_exists'.mp hw
    obtain ⟨k, u, v, hu, -, hid, -, -⟩ := exists_of_get? ha
    exact hid ▸ hinputs u (List.mem_of_getElem? hu)
  · obtain ⟨k, u, v', -, hv', -, heq, -⟩ := exists_of_get? hw
    cases heq
    exact hvars v (List.mem_of_getElem? hv')

end HeaderTakes

namespace HeaderFits

open HeaderTakes (mem_zip exists_index eq_of_mem_zip)

variable {inputs vars : List Var}

theorem resolve_input (h : HeaderFits inputs vars) {k : Nat} {u v : Var}
    (hu : inputs[k]? = some u) (hv : vars[k]? = some v) :
    (headerTable inputs vars).resolve (.var u) = .var v :=
  h.toHeaderTakes.resolve_getElem? h.nodup_inputs hu hv

theorem held_header (h : HeaderFits inputs vars) {k : Nat} {u v : Var}
    (hu : inputs[k]? = some u) (hv : vars[k]? = some v) :
    (Lifetimes.ofHeader inputs vars).held v.id = [u.id] := by
  simp only [Lifetimes.ofHeader]
  cases hfind : (inputs.zip vars).find? fun e => e.2.id == v.id with
  | none =>
    have := List.find?_eq_none.mp hfind (u, v) (mem_zip hu hv)
    simp at this
  | some e =>
    have hid : e.2.id = v.id := by simpa using List.find?_some hfind
    obtain ⟨m, hm, hm'⟩ := exists_index (List.mem_of_find?_eq_some hfind)
    have hmk := index_eq_of_id_eq h.nodup_header hm' hv hid
    subst hmk
    cases hm.symm.trans hu
    rfl

theorem held_of_forall_ne {i : Nat} (hi : ∀ v ∈ vars, v.id ≠ i) :
    (Lifetimes.ofHeader inputs vars).held i = [] := by
  simp only [Lifetimes.ofHeader]
  rw [List.find?_eq_none.mpr]
  · rfl
  · intro e he
    obtain ⟨k, -, hk⟩ := exists_index he
    simpa using hi e.2 (List.mem_of_getElem? hk)

/-- The invariant holds where the second walk starts. -/
theorem tracks (h : HeaderFits inputs vars) {s : PassSettings} {p : Pass} {ops : List Operation}
    {args : List Arg} (hren : s.renames = true) (hp : p.forwarding = headerTable inputs vars)
    (hscoped : Scoped inputs ops) (hkeeps : KeepsInputs inputs vars ops args)
    (huncopied : ∀ op ∈ ops, op.opcode = .sameAs → ∀ r, op.result = some r →
      ∀ v ∈ vars, v.id ≠ r.id)
    (hinputs : ∀ v ∈ inputs, v.id < p.shared.values.next)
    (hvars : ∀ v ∈ vars, v.id < p.shared.values.next)
    (hresults : ∀ op ∈ ops, ∀ r, op.result = some r → r.id < p.shared.values.next) :
    Tracks s p (.ofHeader inputs vars) ops args where
  grounded := hp ▸ h.grounded
  inScope := hscoped
  passing u hu op hop r hr hpass := by
    obtain ⟨k, hk⟩ := List.mem_iff_getElem?.mp hu.1
    obtain ⟨v, hv⟩ := h.exists_header hk
    rw [hp] at hpass
    rcases h.passes_input hpass with hid | ⟨e, he, hid, hr⟩
    · exact absurd hid.symm (hscoped.fresh op hop r hr u hu.1)
    · obtain rfl := eq_of_mem_zip h.nodup_inputs hk hv he hid
      rw [← hr, h.held_header hk hv]
      exact List.mem_singleton_self _
  keeps i := by
    by_cases hi : ∃ v ∈ vars, v.id = i
    · obtain ⟨v, hv, rfl⟩ := hi
      obtain ⟨k, hk⟩ := List.mem_iff_getElem?.mp hv
      have hlt := (List.getElem?_eq_some_iff.mp hk).1
      rw [h.length] at hlt
      have hu : inputs[k]? = some inputs[k] := List.getElem?_eq_getElem hlt
      rw [h.held_header hu hk]
      exact hkeeps _ (mem_zip hu hk)
    · rw [held_of_forall_ne fun v hv hid => hi ⟨v, hv, hid⟩]
      exact keepsValue_nil ..
  unread := unread_nil ..
  uncopied op hop hsame r hr := held_of_forall_ne (huncopied op hop hsame r hr)
  plain hno := by
    rw [hren] at hno
    cases hno
  closed hno := by
    rw [hren] at hno
    cases hno
  bounded _ := ⟨hp ▸ HeaderTakes.below hinputs hvars, hinputs, hresults⟩

/-- The inputs of a round and the header of a turn take the same values. -/
theorem agrees (h : HeaderFits inputs vars) (base : Env) {vals : List Value}
    (hlen : vals.length = vars.length) :
    Agrees (headerTable inputs vars) (.ofHeader inputs vars) (base.bind inputs vals)
      (base.bind vars vals) := by
  rintro u ⟨hu, -⟩
  obtain ⟨k, hk⟩ := List.mem_iff_getElem?.mp hu
  obtain ⟨v, hv⟩ := h.exists_header hk
  have hlt := (List.getElem?_eq_some_iff.mp hv).1
  rw [← hlen] at hlt
  have hx : vals[k]? = some vals[k] := List.getElem?_eq_getElem hlt
  rw [h.resolve_input hk hv, Arg.eval_var, Env.bind_of_getElem? h.nodup_inputs hk hx,
    Env.bind_of_getElem? h.nodup_header hv hx]

end HeaderFits

theorem eval_resolve_args {t : Forwarding} {f : Lifetimes} {ρ ρ' : Env} (h : Agrees t f ρ ρ')
    {args : List Arg} (hseen : ∀ v, .var v ∈ args → v ∈ f.seen) (hunread : Unread f.stale [] args) :
    (args.map t.resolve).map (·.eval ρ') = args.map (·.eval ρ) := by
  rw [List.map_map]
  refine List.map_congr_left fun a ha => h.eval_resolve ?_
  rintro v rfl
  exact ⟨hseen v ha, hunread.2 v (Arg.mem_filterMap_var?_iff.mpr ha)⟩

/-- A turn of the loop proper comes to the same as a round of the recorded loop. -/
theorem sameLeg_of_run {s : PassSettings} {p p' : Pass} {f : Lifetimes} {ops : List Operation}
    {args : List Arg} {last : Option Operation}
    (hrun : runFrom (Pass.run s ops) p = (.ok last, p')) (hops : ∀ op ∈ ops, op.isFinal = false)
    (ht : Tracks s p f ops args) (hguarded : p.guarded = false)
    (hargs : ∀ v, .var v ∈ args → v ∈ scopeAfter f.seen ops) :
    ∃ code : List Site, p'.out = p.out ++ code.map (·.op) ∧
      EmittedFrom s.renames code (sites 0 ops) ∧
      ∀ (σ : Type) (M : Machine σ) (ρ ρ' : Env) (st : σ) (jump jump' : Site),
        Agrees p.forwarding f ρ ρ' → jump.op.opcode = .jump → jump.op.args = args →
        jump'.op.opcode = .jump → jump'.op.args = args.map p'.forwarding.resolve →
        SameLeg args.length jump'.op.descr (M.run s.memo (sites 0 ops ++ [jump]) ρ st)
          (M.run s.memo (code ++ [jump']) ρ' st) := by
  obtain ⟨ht', code, hout, hemits, hfollows⟩ := Follows.of_run hrun hops ht 0
  refine ⟨code, hout, hemits, ?_⟩
  intro σ M ρ ρ' st jump jump' hagrees hop hjargs hop' hjargs'
  refine hfollows σ M _ [jump] [jump'] ρ ρ' st (fun o x st => .fails o x st) ?_ hagrees ?_
  · intro hyes
    rw [hguarded] at hyes
    cases hyes
  · intro ρ₁ ρ₁' st₁ _ hagrees₁
    have hstop : OpCode.jump.isStop = true := rfl
    rw [M.run_cons_of_isStop s.memo (by rw [hop]; exact hstop),
      M.run_cons_of_isStop s.memo (by rw [hop']; exact hstop), hjargs, hjargs',
      eval_resolve_args hagrees₁ (by rw [Lifetimes.seen_after]; exact hargs) ht'.unread, hop, hop']
    exact .stops (by decide) (by decide) (by simp)

end HotLoop
