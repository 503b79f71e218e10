import HotLoop.Proofs.Walk.Lifetimes
import HotLoop.Proofs.Walk.Slots
import Mathlib.Data.List.Forall2

/-!
# A walk preserves meaning

The recorded operations and the output of a walk are executed side by side. A recorded variable has
the value that the end of its chain has in the output, as long as it can be relied on. Both
executions take the same path, and where one fails the other fails at the guard that has been
emitted for the same recorded operation, with the same values in its slots.
-/

namespace HotLoop

variable {σ : Type} {M : Machine σ} {s : PassSettings} {p p' : Pass} {f : Lifetimes}
  {op : Operation} {ops : List Operation} {args : List Arg} {ρ ρ' : Env}

/-- What the variables that can be relied on have as values, the ends of their chains have too. -/
def Agrees (t : Forwarding) (f : Lifetimes) (ρ ρ' : Env) : Prop :=
  ∀ v, f.Live v → ρ v.id = (t.resolve (.var v)).eval ρ'

theorem Agrees.eval_resolve {t : Forwarding} (h : Agrees t f ρ ρ') {a : Arg}
    (ha : ∀ v, a = .var v → f.Live v) : (t.resolve a).eval ρ' = a.eval ρ := by
  cases a with
  | const c => rw [Forwarding.resolve_const]; rfl
  | var v => exact (h v (ha v rfl)).symm

/-- The resolved arguments of an operation have the values of the recorded ones. -/
theorem Agrees.eval_args (h : Agrees p.forwarding f ρ ρ') (ht : Tracks s p f (op :: ops) args) :
    (p.forwarding.apply op).args.map (·.eval ρ') = op.args.map (·.eval ρ) := by
  simp only [Forwarding.apply, List.map_map]
  refine List.map_congr_left fun a ha => h.eval_resolve ?_
  rintro v rfl
  exact ht.live_of_mem_uses (mem_uses_of_mem_args ha)

theorem Agrees.next_of_defines?_none {t : Forwarding} (h : Agrees t f ρ ρ')
    (hnone : op.defines? = none) : Agrees t (f.next op) ρ ρ' := by
  rintro v ⟨hv, hstale⟩
  rcases mem_extend.mp hv with hdef | hv
  · rw [hnone] at hdef
    cases hdef
  · exact h v (Tracks.live_of_live_next hv hstale)

theorem Agrees.replace (h : Agrees p.forwarding f ρ ρ') (ht : Tracks s p f (op :: ops) args)
    {r : Var} {a : Arg} (hfate : fate s p.guarded (p.forwarding.apply op) = .ok (.replace r a)) :
    Agrees (p.forwarding.forward r a) (f.next op) (ρ.set r (a.eval ρ')) ρ' := by
  obtain ⟨hend, hne⟩ := ht.replace_isEnd hfate
  have hdef : op.defines? = some r := (replace_cases hfate).1
  have hr : op.result = some r := result_of_defines? hdef
  rintro v ⟨hv, hstale⟩
  rcases mem_extend.mp hv with hdefv | hseen
  · have hvr : v = r := Option.some.inj (hdefv.symm.trans hdef)
    subst hvr
    rw [Forwarding.resolve_forward_of_passes ht.grounded hend hne (Forwarding.passes_var _ v),
      Env.set_self]
  · have hnot := ht.not_passes_result hseen hstale hr
    have hid : v.id ≠ r.id := fun heq => hnot (heq ▸ Forwarding.passes_var _ v)
    rw [Forwarding.resolve_forward_of_not_passes ht.grounded hne hnot, Env.set_of_ne hid]
    exact h v (Tracks.live_of_live_next hseen hstale)

theorem Tracks.resolve_renamed (ht : Tracks s p f (op :: ops) args) {op' e : Operation}
    {t : Forwarding} {deps : FieldSet} {guarded : Bool}
    (hfate : fate s p.guarded (p.forwarding.apply op) = .ok (.keep op'))
    (hkeeps : Pass.Keeps s { p with deps, guarded } p' op' op.failSlots t e) {v : Var}
    (hpass : ∀ r, op.result = some r → ¬ p.forwarding.Passes (.var v) r.id) :
    t.resolve (.var v) = p.forwarding.resolve (.var v) ∧
      ∀ i, t.Passes (.var v) i ↔ p.forwarding.Passes (.var v) i := by
  rcases hkeeps.renamed with ⟨hren, r, w, hr, -, hw, rfl, -⟩ | ⟨-, -, rfl, -⟩
  · have hop : op.result = some r := by
      rcases keep_cases hfate with ⟨rfl, -, -⟩ | ⟨-, rfl⟩
      · exact hr
      · cases hr
    have hne : ∀ u, Arg.var w = .var u → u.id ≠ r.id := by
      rintro _ ⟨rfl⟩
      have hlt := (ht.bounded hren).2.2 op (List.mem_cons_self ..) r hop
      have hw : w.id = p.shared.values.next := hw
      omega
    have hnot := hpass r hop
    exact ⟨Forwarding.resolve_forward_of_not_passes ht.grounded hne hnot,
      fun i => Forwarding.passes_forward_of_not_passes hne hnot⟩
  · exact ⟨rfl, fun i => Iff.rfl⟩

theorem compute_of_keep {op' e : Operation} {t : Forwarding} {q : Pass}
    (hfate : fate s p.guarded (p.forwarding.apply op) = .ok (.keep op'))
    (hkeeps : Pass.Keeps s q p' op' op.failSlots t e)
    (hargs : (p.forwarding.apply op).args.map (·.eval ρ') = op.args.map (·.eval ρ)) (st : σ) :
    M.compute s.memo e.opcode e.descr (e.args.map (·.eval ρ')) st =
      M.compute s.memo op.opcode op.descr (op.args.map (·.eval ρ)) st := by
  rw [hkeeps.opcode, hkeeps.args]
  rcases keep_cases hfate with ⟨rfl, -, -⟩ | ⟨hquasi, rfl⟩
  · rw [hargs]
    cases hguard : (p.forwarding.apply op).isGuard with
    | true => exact M.compute_of_isGuard s.memo hguard ..
    | false =>
      rw [hkeeps.same hguard]
      rfl
  · have hquasi : op.opcode = .quasiimmutField := hquasi
    rw [M.compute_of_guardsFields s.memo (.inr rfl), M.compute_of_guardsFields s.memo (.inl hquasi)]

theorem defines?_of_keep {op' e : Operation} {t : Forwarding} {q : Pass}
    (hfate : fate s p.guarded (p.forwarding.apply op) = .ok (.keep op'))
    (hkeeps : Pass.Keeps s q p' op' op.failSlots t e) :
    (op.defines? = none ∧ e.defines? = none) ∨
      (op' = p.forwarding.apply op ∧ op.defines? = op.result ∧ e.defines? = e.result) := by
  rcases keep_cases hfate with ⟨rfl, -, -⟩ | ⟨hquasi, rfl⟩
  · have hcode : e.opcode = op.opcode := hkeeps.opcode
    cases hcheck : op.opcode.isCheck with
    | true => exact .inl ⟨by simp [Operation.defines?, hcheck],
        by simp [Operation.defines?, hcode, hcheck]⟩
    | false => exact .inr ⟨rfl, by simp [Operation.defines?, hcheck],
        by simp [Operation.defines?, hcode, hcheck]⟩
  · have hquasi : op.opcode = .quasiimmutField := hquasi
    exact .inl ⟨by simp [Operation.defines?, hquasi, OpCode.isCheck],
      by simp [Operation.defines?, hkeeps.opcode, OpCode.isCheck]⟩

section Kept

variable {op' e : Operation} {t : Forwarding} {deps : FieldSet} {guarded : Bool}

private theorem Tracks.ne_kept_result (ht : Tracks s p f (op :: ops) args)
    (hfate : fate s p.guarded (p.forwarding.apply op) = .ok (.keep op'))
    (hkeeps : Pass.Keeps s { p with deps, guarded } p' op' op.failSlots t e) {v w r : Var}
    (hv : v ∈ f.seen) (hstale : v.id ∉ (f.next op).stale)
    (hend : p.forwarding.resolve (.var v) = .var w) (hr : e.result = some r) : w.id ≠ r.id := by
  have hpass := ht.grounded.passes_resolve hend
  rcases hkeeps.renamed with ⟨hren, r', v', -, he, hv', -, -⟩ | ⟨-, he, -, -⟩
  · obtain ⟨hbelow, hlt, -⟩ := ht.bounded hren
    have hw := hbelow.passes (hlt v hv) hpass
    have hv' : v'.id = p.shared.values.next := hv'
    have hid : v' = r := Option.some.inj (he.symm.trans hr)
    rw [← hid]
    omega
  · have hop : op.result = some r := by
      rw [he] at hr
      rcases keep_cases hfate with ⟨rfl, -, -⟩ | ⟨-, rfl⟩
      · exact hr
      · cases hr
    intro heq
    exact ht.not_passes_result hv hstale hop (heq ▸ hpass)

private theorem Tracks.resolve_kept_result (ht : Tracks s p f (op :: ops) args)
    (hfate : fate s p.guarded (p.forwarding.apply op) = .ok (.keep op'))
    (hkeeps : Pass.Keeps s { p with deps, guarded } p' op' op.failSlots t e) {r : Var}
    (hdef : op.defines? = some r) :
    ∃ w, e.defines? = some w ∧ t.resolve (.var r) = .var w := by
  have hr : op.result = some r := result_of_defines? hdef
  rcases defines?_of_keep hfate hkeeps with ⟨hnone, -⟩ | ⟨rfl, -, hdef'⟩
  · rw [hnone] at hdef
    cases hdef
  · rcases hkeeps.renamed with ⟨hren, r', w, hr', he, hw, rfl, -⟩ | ⟨hnone, he, rfl, -⟩
    · have hrr : r' = r := Option.some.inj (Eq.trans (Eq.symm hr') hr)
      subst hrr
      have hw : w.id = p.shared.values.next := hw
      obtain ⟨hbelow, -, hresults⟩ := ht.bounded hren
      have hrlt := hresults op (List.mem_cons_self ..) r' hr
      have hend : p.forwarding.IsEnd (.var w) := hbelow.isEnd (Nat.le_of_eq hw.symm)
      have hne : ∀ u, Arg.var w = .var u → u.id ≠ r'.id := by
        rintro _ ⟨rfl⟩
        omega
      exact ⟨w, hdef'.trans he, Forwarding.resolve_forward_of_passes ht.grounded hend hne
        (Forwarding.passes_var _ r')⟩
    · have hplain : s.renames = false := by
        cases hren : s.renames with
        | false => rfl
        | true =>
          have hresult : op.result = none := hnone hren
          rw [hr] at hresult
          cases hresult
      have hget := (ht.plain hplain).2.2 op (List.mem_cons_self ..) r hr
      refine ⟨r, ?_, Forwarding.resolve_of_get?_none hget⟩
      rw [hdef', he]
      exact hr

/-- Both operations give their results the same value; nothing has been learned yet. -/
theorem Agrees.keep (h : Agrees p.forwarding f ρ ρ') (ht : Tracks s p f (op :: ops) args)
    (hfate : fate s p.guarded (p.forwarding.apply op) = .ok (.keep op'))
    (hkeeps : Pass.Keeps s { p with deps, guarded } p' op' op.failSlots t e) (x : Value) :
    Agrees t (f.next op) (ρ.assign op.defines? x) (ρ'.assign e.defines? x) := by
  rintro v ⟨hv, hstale⟩
  rcases mem_extend.mp hv with hdef | hseen
  · obtain ⟨w, he, hend⟩ := ht.resolve_kept_result hfate hkeeps hdef
    rw [hdef, he, hend]
    simp only [Env.assign, Env.set_self, Arg.eval_var]
  · have hpass := fun r hr => ht.not_passes_result (r := r) hseen hstale hr
    rw [(ht.resolve_renamed hfate hkeeps hpass).1, Env.assign_of_ne, Arg.eval_assign_of_ne]
    · exact h v (Tracks.live_of_live_next hseen hstale)
    · intro w hw r hr
      exact ht.ne_kept_result hfate hkeeps hseen hstale hw (result_of_defines? hr)
    · intro r hr
      exact ht.inScope.fresh op (List.mem_cons_self ..) r (result_of_defines? hr) v hseen

/-- A guard that has passed has taught the value of what it compares. -/
theorem Agrees.learn (h : Agrees t (f.next op) ρ ρ') (ht : Tracks s p f (op :: ops) args)
    (hfate : fate s p.guarded (p.forwarding.apply op) = .ok (.keep op'))
    (hkeeps : Pass.Keeps s { p with deps, guarded } p' op' op.failSlots t e)
    (hknown : ∀ v c, op'.args = [.var v, .const c] → op'.opcode = .guardValue → ρ' v.id = c) :
    Agrees p'.forwarding (f.next op) ρ ρ' := by
  have htracks := (ht.keep hfate hkeeps).1
  rw [hkeeps.forwarding, Pass.learn]
  cases hlearned : op'.learned? with
  | none => exact h
  | some learned =>
    obtain ⟨v, a⟩ := learned
    obtain ⟨c, rfl, hop, hargs, rfl, hend, -⟩ := ht.exists_passes_of_learned? hfate hlearned
    have hc : ρ' v.id = c := hknown v c hargs hop
    have hne : ∀ w, Arg.const c = .var w → w.id ≠ v.id := fun w hw => by cases hw
    rintro u ⟨hu, hstale⟩
    by_cases hpass : t.Passes (.var u) v.id
    · rw [Forwarding.resolve_forward_of_passes htracks.grounded (Forwarding.isEnd_const t c) hne
        hpass, Arg.eval_const, ← hc, h u ⟨hu, hstale⟩]
      have hseen : u ∈ f.seen := by
        rcases mem_extend.mp hu with hdef | hseen
        · have hop : op.opcode = .guardValue := hop
          simp [Operation.defines?, hop, OpCode.isCheck] at hdef
        · exact hseen
      have hnot := fun r hr => ht.not_passes_result (r := r) hseen hstale hr
      obtain ⟨hresolve, hpasses⟩ := ht.resolve_renamed hfate hkeeps hnot
      rw [hpasses] at hpass
      obtain ⟨w, hw, hid⟩ := (ht.grounded.passes_iff_of_isEnd hend).mp hpass
      rw [hresolve, hw, Arg.eval_var, hid]
    · rw [Forwarding.resolve_forward_of_not_passes htracks.grounded hne hpass]
      exact h u ⟨hu, hstale⟩

/-- The slots of the kept operation have the values of the recorded ones. -/
theorem Agrees.exitValues (h : Agrees p.forwarding f ρ ρ') (ht : Tracks s p f (op :: ops) args)
    (hfate : fate s p.guarded (p.forwarding.apply op) = .ok (.keep op'))
    (hkeeps : Pass.Keeps s { p with deps, guarded } p' op' op.failSlots t e) :
    Machine.exitValues ρ' (op.failSlots.map (NumberedSlots.meaning t)) =
      Machine.exitValues ρ (op.failSlots.map (·.map .var)) := by
  simp only [Machine.exitValues, List.map_map]
  refine List.map_congr_left fun slot hslot => ?_
  cases slot with
  | none => rfl
  | some v =>
    have hlive := ht.live_of_mem_uses (mem_uses_of_mem_failSlots hslot)
    have hpass : ∀ r, op.result = some r → ¬ p.forwarding.Passes (.var v) r.id := by
      intro r hr hpass
      have hheld := ht.passing v hlive op (List.mem_cons_self ..) r hr hpass
      have hkeeps := ht.keeps r.id
      unfold KeepsValue at hkeeps
      rw [if_pos (by rw [hr]; rfl)] at hkeeps
      exact hkeeps.1 v (mem_failVars_iff.mpr hslot) hheld
    simp only [Function.comp, NumberedSlots.meaning, Option.map_some]
    rw [(ht.resolve_renamed hfate hkeeps hpass).1, ← h v hlive]
    rfl

end Kept

/--
`code` does from the environments that agree at `p` what `recorded` does: it takes the execution to
environments that agree at `p'`, or both fail. What comes behind is open, and so is in which way
its two endings have to agree.
-/
def Follows (s : PassSettings) (p p' : Pass) (f f' : Lifetimes) (recorded code : List Site) : Prop :=
  ∀ (σ : Type) (M : Machine σ) (R : Ending σ → Ending σ → Prop) (k k' : List Site) (ρ ρ' : Env)
    (st : σ), (∀ o x st, R (.fails o x st) (.fails o x st)) →
    (p.guarded = true → M.valid = true) → Agrees p.forwarding f ρ ρ' →
    (∀ ρ₁ ρ₁' st₁, (p'.guarded = true → M.valid = true) → Agrees p'.forwarding f' ρ₁ ρ₁' →
      R (M.run s.memo k ρ₁ st₁) (M.run s.memo k' ρ₁' st₁)) →
    R (M.run s.memo (recorded ++ k) ρ st) (M.run s.memo (code ++ k') ρ' st)

/--
From environments that agree at `p`, `recorded` and `code` fail alike, or both get through to
environments that agree at `p'`.
-/
def Advances (s : PassSettings) (p p' : Pass) (f f' : Lifetimes) (recorded code : List Site) :
    Prop :=
  ∀ (σ : Type) (M : Machine σ) (ρ ρ' : Env) (st : σ),
    (p.guarded = true → M.valid = true) → Agrees p.forwarding f ρ ρ' →
    (∃ o x st', (∀ k, M.run s.memo (recorded ++ k) ρ st = .fails o x st') ∧
      ∀ k, M.run s.memo (code ++ k) ρ' st = .fails o x st') ∨
    ∃ ρ₁ ρ₁' st₁, M.through s.memo (recorded.map (·.op)) ρ st = some (ρ₁, st₁) ∧
      M.through s.memo (code.map (·.op)) ρ' st = some (ρ₁', st₁) ∧
      (p'.guarded = true → M.valid = true) ∧ Agrees p'.forwarding f' ρ₁ ρ₁'

namespace Advances

variable {g f' : Lifetimes} {rs rs' cs cs' : List Site}

theorem refl (s : PassSettings) (p : Pass) (f : Lifetimes) : Advances s p p f f [] [] :=
  fun _ _ ρ ρ' st hvalid hagrees => .inr ⟨ρ, ρ', st, rfl, rfl, hvalid, hagrees⟩

theorem trans {q : Pass} (h : Advances s p q f g rs cs) (h' : Advances s q p' g f' rs' cs') :
    Advances s p p' f f' (rs ++ rs') (cs ++ cs') := by
  intro σ M ρ ρ' st hvalid hagrees
  rcases h σ M ρ ρ' st hvalid hagrees with
    ⟨o, x, st', hrs, hcs⟩ | ⟨ρ₁, ρ₁', st₁, hrs, hcs, hvalid₁, hagrees₁⟩
  · exact .inl ⟨o, x, st', fun k => by rw [List.append_assoc, hrs],
      fun k => by rw [List.append_assoc, hcs]⟩
  · rcases h' σ M ρ₁ ρ₁' st₁ hvalid₁ hagrees₁ with
      ⟨o, x, st', hrs', hcs'⟩ | ⟨ρ₂, ρ₂', st₂, hrs', hcs', hvalid₂, hagrees₂⟩
    · refine .inl ⟨o, x, st', fun k => ?_, fun k => ?_⟩
      · rw [List.append_assoc, M.run_append_of_through s.memo hrs, hrs']
      · rw [List.append_assoc, M.run_append_of_through s.memo hcs, hcs']
    · refine .inr ⟨ρ₂, ρ₂', st₂, ?_, ?_, hvalid₂, hagrees₂⟩
      · rw [List.map_append, M.through_append, hrs]
        exact hrs'
      · rw [List.map_append, M.through_append, hcs]
        exact hcs'

theorem follows (h : Advances s p p' f f' rs cs) : Follows s p p' f f' rs cs := by
  intro σ M R k k' ρ ρ' st hfails hvalid hagrees hrest
  rcases h σ M ρ ρ' st hvalid hagrees with
    ⟨o, x, st', hrs, hcs⟩ | ⟨ρ₁, ρ₁', st₁, hrs, hcs, hvalid₁, hagrees₁⟩
  · rw [hrs, hcs]
    exact hfails o x st'
  · rw [M.run_append_of_through s.memo hrs, M.run_append_of_through s.memo hcs]
    exact hrest ρ₁ ρ₁' st₁ hvalid₁ hagrees₁

/-- Where the code gets through, what has been recorded does, and to an environment that agrees. -/
theorem through (h : Advances s p p' f f' rs cs) {st st₁ : σ} {ρ₁' : Env}
    (hvalid : p.guarded = true → M.valid = true) (hagrees : Agrees p.forwarding f ρ ρ')
    (hgoes : M.through s.memo (cs.map (·.op)) ρ' st = some (ρ₁', st₁)) :
    ∃ ρ₁, M.through s.memo (rs.map (·.op)) ρ st = some (ρ₁, st₁) ∧
      Agrees p'.forwarding f' ρ₁ ρ₁' := by
  rcases h σ M ρ ρ' st hvalid hagrees with
    ⟨o, x, st', -, hcs⟩ | ⟨ρ₁, ρ₂', st₂, hrs, hcs, -, hagrees₁⟩
  · have hends := M.run_append_of_through s.memo hgoes []
    rw [hcs] at hends
    cases hends
  · cases hcs.symm.trans hgoes
    exact ⟨ρ₁, hrs, hagrees₁⟩

end Advances

/-- What the site of a kept operation tells about the recorded one. -/
structure Site.Emits (renames : Bool) (r e : Site) : Prop where
  origin : e.origin = r.origin
  opcode : e.op.opcode =
    if r.op.opcode = .quasiimmutField then .guardNotInvalidated else r.op.opcode
  final : r.op.leavesForGood = true → e.op.descr = r.op.descr
  guard : e.op.isGuard = true → r.op.leavesForGood = false → ∃ g n, e.op.descr = some (.guard g) ∧
    e.op.failArgs = some (NumberedSlots.boxes n) ∧ e.exit = n.read ∧
    ∀ g', r.op.opcode ≠ .quasiimmutField → r.op.guard? = some g' →
      g.opcode = g'.opcode ∧ g.kind = g'.kind ∧ (renames = false → g = g')

/-- The sites of `code` stand for some of the recorded ones, in their order. -/
def EmittedFrom (renames : Bool) (code recorded : List Site) : Prop :=
  List.SublistForall₂ (fun e r => Site.Emits renames r e) code recorded

theorem EmittedFrom.append {renames : Bool} {code code' recorded recorded' : List Site}
    (h : EmittedFrom renames code recorded) (h' : EmittedFrom renames code' recorded') :
    EmittedFrom renames (code ++ code') (recorded ++ recorded') := by
  obtain ⟨l, hl, hsub⟩ := List.sublistForall₂_iff.mp h
  obtain ⟨l', hl', hsub'⟩ := List.sublistForall₂_iff.mp h'
  exact List.sublistForall₂_iff.mpr ⟨l ++ l', List.rel_append hl hl', hsub.append hsub'⟩

private def keptSite (t : Forwarding) (op e : Operation) (i : Nat) : Site :=
  ⟨e, i, if op.leavesForGood then [] else op.failSlots.map (NumberedSlots.meaning t)⟩

private theorem emits_keptSite {op' e : Operation} {t : Forwarding} {q : Pass} {i : Nat}
    (hfate : fate s p.guarded (p.forwarding.apply op) = .ok (.keep op'))
    (hkeeps : Pass.Keeps s q p' op' op.failSlots t e) :
    Site.Emits s.renames ⟨op, i, op.exit⟩ (keptSite t op e i) := by
  have hisGuard : e.isGuard = op'.isGuard := congrArg OpCode.isGuard hkeeps.opcode
  refine ⟨rfl, ?_, fun hfinal => ?_, fun hguard hstays => ?_⟩
  · rw [show (keptSite t op e i).op.opcode = op'.opcode from hkeeps.opcode]
    rcases keep_cases hfate with ⟨rfl, hquasi, -⟩ | ⟨hquasi, rfl⟩
    · exact (if_neg hquasi).symm
    · exact (if_pos hquasi).symm
  · unfold Operation.leavesForGood at hfinal
    split at hfinal
    · rename_i x hdescr
      have hdescr : op.descr = some (.final x) := hdescr
      rcases keep_cases hfate with ⟨rfl, -, -⟩ | ⟨hquasi, -⟩
      · have heq := (hkeeps.finishes hfinal).final x hdescr
        change e.descr = op.descr
        rw [heq]
        rfl
      · have hquasi : op.opcode = .quasiimmutField := hquasi
        have hfinal : op.opcode.isGuard = true := hfinal
        rw [hquasi] at hfinal
        cases hfinal
    · cases hfinal
  · have hguard' : op'.isGuard = true := hisGuard ▸ hguard
    have hstays : op.leavesForGood = false := hstays
    have hdescr : ∀ x, op'.descr ≠ some (.final x) := by
      intro x hx
      rcases keep_cases hfate with ⟨rfl, -, -⟩ | ⟨-, rfl⟩
      · have hx : op.descr = some (.final x) := hx
        have hguard' : op.isGuard = true := hguard'
        rw [Operation.leavesForGood, hx] at hstays
        rw [hguard'] at hstays
        cases hstays
      · cases hx
    have hfinishes := hkeeps.finishes hguard'
    obtain ⟨g, hg, hcopy⟩ := hfinishes.descr hdescr
    refine ⟨g, _, hg, hfinishes.slots hdescr, ?_, fun g' hquasi hg' => hcopy g' ?_⟩
    · rw [NumberedSlots.read_ofSlots, keptSite, hstays]
      rfl
    · rcases keep_cases hfate with ⟨rfl, -, -⟩ | ⟨hop, -⟩
      · exact hg'
      · exact absurd hop hquasi

private theorem eq_of_compute_guardValue {memo : PureMemo} {descr : Option Descr} {a c x : Value}
    {st st' : σ} (h : M.compute memo .guardValue descr [a, c] st = some (x, st')) : a = c := by
  have hcompute : M.compute memo .guardValue descr [a, c] st =
      if a == c then some (.void, st) else none := rfl
  rw [hcompute] at h
  by_cases heq : (a == c) = true
  · exact beq_iff_eq.mp heq
  · rw [if_neg heq] at h
    cases h

private theorem valid_of_compute {memo : PureMemo} {descr : Option Descr} {vals : List Value}
    {x : Value} {st st' : σ} (hop : op.guardsFields = true)
    (h : M.compute memo op.opcode descr vals st = some (x, st')) : M.valid = true := by
  simp only [Operation.guardsFields, Bool.or_eq_true, decide_eq_true_eq] at hop
  rw [M.compute_of_guardsFields memo hop] at h
  by_cases hvalid : M.valid = true
  · exact hvalid
  · rw [if_neg hvalid] at h
    cases h

private theorem Agrees.of_keep (h : Agrees p.forwarding f ρ ρ') (ht : Tracks s p f (op :: ops) args)
    {op' e : Operation} {t : Forwarding} {deps : FieldSet}
    (hfate : fate s p.guarded (p.forwarding.apply op) = .ok (.keep op'))
    (hkeeps : Pass.Keeps s { p with deps, guarded := p.guarded || op.guardsFields } p' op'
      op.failSlots t e) {x : Value} {st st₁ : σ} (hvalid : p.guarded = true → M.valid = true)
    (hresult : M.compute s.memo op.opcode op.descr (op.args.map (·.eval ρ)) st = some (x, st₁)) :
    (p'.guarded = true → M.valid = true) ∧
      Agrees p'.forwarding (f.next op) (ρ.assign op.defines? x) (ρ'.assign e.defines? x) := by
  refine ⟨fun hguarded => ?_, (h.keep ht hfate hkeeps x).learn ht hfate hkeeps
    fun v c hargs hop => ?_⟩
  · rw [hkeeps.guarded] at hguarded
    cases hp : p.guarded with
    | true => exact hvalid hp
    | false =>
      have hfields : op.guardsFields = true := by simpa [hp] using hguarded
      exact valid_of_compute hfields hresult
  · have hcompute := compute_of_keep (M := M) hfate hkeeps (h.eval_args ht) st
    rw [hresult, hkeeps.args, hkeeps.opcode, hop, hargs] at hcompute
    have hdef : e.defines? = none := by
      simp [Operation.defines?, hkeeps.opcode, hop, OpCode.isCheck]
    rw [hdef]
    exact eq_of_compute_guardValue hcompute

private theorem Advances.of_keep (ht : Tracks s p f (op :: ops) args)
    (hstop : op.opcode.isStop = false) {op' e : Operation} {t : Forwarding} {deps : FieldSet}
    (hfate : fate s p.guarded (p.forwarding.apply op) = .ok (.keep op'))
    (hkeeps : Pass.Keeps s { p with deps, guarded := p.guarded || op.guardsFields } p' op'
      op.failSlots t e) (i : Nat) :
    Advances s p p' f (f.next op) [⟨op, i, op.exit⟩] [keptSite t op e i] := by
  intro σ M ρ ρ' st hvalid hagrees
  have hcompute := compute_of_keep (M := M) hfate hkeeps (hagrees.eval_args ht) st
  have hstop' : e.opcode.isStop = false := by
    rw [hkeeps.opcode]
    rcases keep_cases hfate with ⟨rfl, -, -⟩ | ⟨-, rfl⟩
    · exact hstop
    · rfl
  cases hresult : M.compute s.memo op.opcode op.descr (op.args.map (·.eval ρ)) st with
  | none =>
    rw [hresult] at hcompute
    have hexit : Machine.exitValues ρ' (keptSite t op e i).exit =
        Machine.exitValues ρ op.exit := by
      simp only [keptSite, Operation.exit]
      split
      · rfl
      · exact hagrees.exitValues ht hfate hkeeps
    refine .inl ⟨i, _, st, fun k => M.run_cons_of_compute_none s.memo hstop hresult, fun k => ?_⟩
    rw [← hexit]
    exact M.run_cons_of_compute_none s.memo (e := keptSite t op e i) hstop' hcompute
  | some result =>
    obtain ⟨x, st₁⟩ := result
    rw [hresult] at hcompute
    exact .inr ⟨_, _, st₁, M.through_singleton s.memo hstop hresult,
      M.through_singleton s.memo hstop' hcompute, hagrees.of_keep ht hfate hkeeps hvalid hresult⟩

theorem Advances.of_stepped (ht : Tracks s p f (op :: ops) args) (hop : op.isFinal = false)
    (hstep : Pass.Stepped s p p' op) (i : Nat) :
    ∃ code : List Site, p'.out = p.out ++ code.map (·.op) ∧
      EmittedFrom s.renames code [⟨op, i, op.exit⟩] ∧
      Advances s p p' f (f.next op) [⟨op, i, op.exit⟩] code := by
  have hstop : op.opcode.isStop = false := by
    have hlabel : op.opcode ≠ .label := ht.inScope.2.2.1
    have hop : op.opcode.isFinal = false := hop
    simp [OpCode.isStop, hop, hlabel]
  cases hstep with
  | drop hfate heq =>
    obtain ⟨deps, rfl⟩ := heq
    refine ⟨[], by simp, .nil, fun σ M ρ ρ' st hvalid hagrees => .inr ?_⟩
    have hdef : (p.forwarding.apply op).defines? = none := defines?_of_drop hfate
    have hdef : op.defines? = none := hdef
    obtain ⟨x, hx⟩ := compute_of_drop M hfate hvalid ρ' st
    rw [hagrees.eval_args ht] at hx
    refine ⟨_, ρ', st, M.through_singleton s.memo hstop hx, rfl, hvalid, ?_⟩
    rw [hdef]
    exact hagrees.next_of_defines?_none hdef
  | replace r a hfate heq =>
    obtain ⟨deps, rfl⟩ := heq
    refine ⟨[], by simp, .nil, fun σ M ρ ρ' st hvalid hagrees => .inr ?_⟩
    have hdef : op.defines? = some r := (replace_cases hfate).1
    have hx := compute_of_replace M hfate ρ' st
    rw [hagrees.eval_args ht] at hx
    refine ⟨_, ρ', st, M.through_singleton s.memo hstop hx, rfl, hvalid, ?_⟩
    rw [hdef]
    exact hagrees.replace ht hfate
  | keep op' e t hfate hkeeps =>
    obtain ⟨deps, hkeeps⟩ := hkeeps
    exact ⟨[keptSite t op e i], by simp [hkeeps.out, keptSite],
      .cons (emits_keptSite hfate hkeeps) .nil, Advances.of_keep ht hstop hfate hkeeps i⟩

theorem Follows.of_stepped (ht : Tracks s p f (op :: ops) args) (hop : op.isFinal = false)
    (hstep : Pass.Stepped s p p' op) (i : Nat) :
    ∃ code : List Site, p'.out = p.out ++ code.map (·.op) ∧
      EmittedFrom s.renames code [⟨op, i, op.exit⟩] ∧
      Follows s p p' f (f.next op) [⟨op, i, op.exit⟩] code := by
  obtain ⟨code, hout, hemits, hadvances⟩ := Advances.of_stepped ht hop hstep i
  exact ⟨code, hout, hemits, hadvances.follows⟩

/-- A walk over operations none of which ends the trace preserves meaning, whatever comes behind. -/
theorem Advances.of_run {last : Option Operation} {rest : List Operation}
    (hrun : runFrom (Pass.run s ops) p = (.ok last, p')) (hops : ∀ op ∈ ops, op.isFinal = false)
    (ht : Tracks s p f (ops ++ rest) args) (i : Nat) :
    Tracks s p' (f.after ops) rest args ∧ ∃ code : List Site, p'.out = p.out ++ code.map (·.op) ∧
      EmittedFrom s.renames code (sites i ops) ∧
      Advances s p p' f (f.after ops) (sites i ops) code := by
  induction ops generalizing p f i with
  | nil =>
    simp only [Pass.run, runFrom_pure, Prod.mk.injEq] at hrun
    obtain ⟨-, rfl⟩ := hrun
    exact ⟨ht, [], by simp, .nil, .refl s p f⟩
  | cons op ops ih =>
    have hop := hops op (List.mem_cons_self ..)
    obtain ⟨q, hstepped, hrest⟩ := Pass.run_cons_eq_ok hop hrun
    obtain ⟨code, hout, hemits, hadvances⟩ := Advances.of_stepped ht hop hstepped i
    obtain ⟨ht', code', hout', hemits', hadvances'⟩ :=
      ih hrest (fun o ho => hops o (List.mem_cons_of_mem _ ho)) (ht.step hstepped) (i + 1)
    refine ⟨ht', code ++ code', ?_, hemits.append hemits', hadvances.trans hadvances'⟩
    rw [hout', hout, List.map_append, List.append_assoc]

theorem Follows.of_run {last : Option Operation} (hrun : runFrom (Pass.run s ops) p = (.ok last, p'))
    (hops : ∀ op ∈ ops, op.isFinal = false) (ht : Tracks s p f ops args) (i : Nat) :
    Tracks s p' (f.after ops) [] args ∧ ∃ code : List Site, p'.out = p.out ++ code.map (·.op) ∧
      EmittedFrom s.renames code (sites i ops) ∧
      Follows s p p' f (f.after ops) (sites i ops) code := by
  rw [← List.append_nil ops] at ht
  obtain ⟨ht', code, hout, hemits, hadvances⟩ := Advances.of_run hrun hops ht i
  exact ⟨ht', code, hout, hemits, hadvances.follows⟩

/--
A walk that gives the trace up has found a guard that every execution fails at, if no earlier.
-/
theorem fails_of_run_eq_invalid {why : InvalidLoop}
    (hrun : runFrom (Pass.run s ops) p = (.error (.invalid why), p'))
    (ht : Tracks s p f ops args) (i : Nat) (M : Machine σ) (k : List Site) (ρ ρ' : Env) (st : σ)
    (hvalid : p.guarded = true → M.valid = true) (hagrees : Agrees p.forwarding f ρ ρ') :
    ∃ o x st', M.run s.memo (sites i ops ++ k) ρ st = .fails o x st' := by
  induction ops generalizing p f i ρ ρ' st with
  | nil => cases hrun
  | cons op ops ih =>
    cases hop : op.isFinal with
    | true =>
      rw [Pass.run, if_pos hop, runFrom_bind] at hrun
      cases hrun
    | false =>
      rw [Pass.run, if_neg (by rw [hop]; exact Bool.false_ne_true), runFrom_bind_eq_error] at hrun
      rcases hrun with hstep | ⟨_, q, hstep, hrest⟩
      · have hfate := Pass.step_eq_invalid hstep
        have hnone := compute_of_invalid M hfate ρ' st
        rw [hagrees.eval_args ht] at hnone
        have hstop : op.opcode.isStop = false := by
          have hlabel : op.opcode ≠ .label := ht.inScope.2.2.1
          have hop : op.opcode.isFinal = false := hop
          simp [OpCode.isStop, hop, hlabel]
        exact ⟨i, _, st, M.run_cons_of_compute_none s.memo (e := ⟨op, i, op.exit⟩) hstop hnone⟩
      · have hstepped := Pass.step_eq_ok hstep
        obtain ⟨code, -, -, hfollows⟩ := Follows.of_stepped ht hop hstepped i
        exact hfollows σ M (fun a _ => ∃ o x st', a = .fails o x st') (sites (i + 1) ops ++ k) []
          ρ ρ' st (fun o x st' => ⟨o, x, st', rfl⟩) hvalid hagrees
          fun ρ₁ ρ₁' st₁ hvalid₁ hagrees₁ =>
            ih hrest (ht.step hstepped) (i + 1) ρ₁ ρ₁' st₁ hvalid₁ hagrees₁

end HotLoop
