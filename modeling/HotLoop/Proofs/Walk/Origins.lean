import HotLoop.Proofs.Walk.Emission
import HotLoop.Proofs.Walk.Issuing

/-!
# Where guards come from

A guard in the output of a walk has been put out for one of the operations that the walk goes over:
for a guard, or for a read of a quasi-immutable field, behind which a guard is left.
-/

namespace HotLoop

def OpCode.leavesGuard (op : OpCode) : Bool := op.isGuard || op == .quasiimmutField

structure Walk where
  settings : PassSettings
  start : Pass
  ops : List Operation

/-- For the operation at the place `i` the walk puts out one with the descriptor `g`. -/
def Walk.PutsOut (w : Walk) (i : Nat) (g : Guard) : Prop :=
  ∃ r pre e, w.ops[i]? = some r ∧ Pass.EmitsFor w.settings w.start (w.ops.take i) r pre e ∧
    e.ownGuard? = some g

namespace Pass

variable {s : PassSettings} {p p' : Pass} {r e : Operation} {g : Guard}

private theorem gives_of_step (hlt : ∀ g, r.ownGuard? = some g → g.id < p.shared.guards.records.length)
    (h : runFrom (step s r) p = (.ok (), p')) (hout : p'.out = p.out ++ [e])
    (hguard : e.ownGuard? = some g) : Gives s p.shared.guards p'.shared.guards r g := by
  cases step_emits hlt h with
  | nothing hsame _ => simp [hsame] at hout
  | plain e' hout' _ hnone _ =>
    have heq : e' = e := by simpa [hout'] using hout
    rw [← heq, hnone] at hguard
    cases hguard
  | guard e' g' hout' _ hguard' hgives =>
    have heq : e' = e := by simpa [hout'] using hout
    rw [← heq, hguard'] at hguard
    cases hguard
    exact hgives

private theorem leavesGuard_of_step (h : runFrom (step s r) p = (.ok (), p'))
    (hout : p'.out = p.out ++ [e]) (hguard : e.isGuard = true) : r.opcode.leavesGuard = true := by
  obtain ⟨op', t, deps, hfate, hkeeps⟩ := (step_eq_ok h).kept hout
  rw [Operation.isGuard, hkeeps.opcode] at hguard
  rcases keep_cases hfate with ⟨rfl, -, -⟩ | ⟨hquasi, -⟩
  · have hr : r.opcode.isGuard = true := hguard
    rw [OpCode.leavesGuard, hr, Bool.true_or]
  · have hr : r.opcode = .quasiimmutField := hquasi
    rw [hr]
    rfl

end Pass

namespace Walk

variable {w : Walk} {i : Nat} {g : Guard} {p : Pass} {last : Option Operation}
  {out : List Operation}

private theorem lt_of_run {s : PassSettings} {q q' : Pass} {before after : List Operation}
    {r : Operation} (hown : OwnGuards q.shared.guards (before ++ r :: after))
    (hrun : runFrom (Pass.run s before) q = (.ok last, q')) (hg : r.ownGuard? = some g) :
    g.id < q'.shared.guards.records.length := by
  have hgrows := (Pass.run_grows s before q).1
  rw [hrun] at hgrows
  refine Nat.lt_of_lt_of_le (hown.lt g ?_) hgrows.length_le
  rw [guardsIn_append, guardsIn_cons, hg]
  simp

theorem PutsOut.opcode (h : w.PutsOut i g) (hown : OwnGuards w.start.shared.guards w.ops) :
    ∃ r, w.ops[i]? = some r ∧ g.opcode = r.guardOpcode := by
  obtain ⟨r, pre, e, hr, ⟨q, q', hrun, -, hstep, hout⟩, hguard⟩ := h
  have hsplit : w.ops = w.ops.take i ++ r :: w.ops.drop (i + 1) := by
    obtain ⟨hi, rfl⟩ := List.getElem?_eq_some_iff.mp hr
    rw [List.getElem_cons_drop, List.take_append_drop]
  rw [hsplit] at hown
  exact ⟨r, hr, (Pass.gives_of_step (fun g hg => lt_of_run hown hrun hg) hstep hout hguard).opcode⟩

/-- Every guard in the output has been put out for an operation, and stands where that has stood. -/
theorem exists_putsOut (hown : OwnGuards w.start.shared.guards w.ops)
    (hrun : runFrom (Pass.run w.settings w.ops) w.start = (.ok last, p))
    (hout : p.out = w.start.out ++ out) (hg : g ∈ guardsIn out) :
    ∃ i r, w.ops[i]? = some r ∧ w.PutsOut i g ∧ r.opcode.leavesGuard = true ∧
      g.id < p.shared.guards.records.length ∧
      (p.shared.guards.get g).data.position = Pass.recordedPosition w.start.shared.guards r := by
  obtain ⟨e, he, hguard, hdescr⟩ := mem_guardsIn.mp hg
  obtain ⟨pre, post, rfl⟩ := List.append_of_mem he
  obtain ⟨before, r, after, q, q', hops, -, -, hbefore, hq, hstep, hq', hafter⟩ :=
    Pass.exists_step_of_run hrun hout
  have hown' : e.ownGuard? = some g := ownGuard?_eq_some.mpr ⟨hguard, hdescr⟩
  rw [hops] at hown
  have hgives := Pass.gives_of_step (fun g hg => lt_of_run hown hbefore hg) hstep hq' hown'
  have hgrows := (Pass.run_grows w.settings before w.start).1
  rw [hbefore] at hgrows
  have hgrows' := (Pass.run_grows w.settings after q').1
  rw [hafter] at hgrows'
  have hplace : w.ops[before.length]? = some r := by simp [hops]
  refine ⟨before.length, r, hplace, ⟨r, pre, e, hplace, ⟨q, q', ?_, hq, hstep, hq'⟩, hown'⟩,
    Pass.leavesGuard_of_step hstep hq' hguard, Nat.lt_of_lt_of_le hgives.lt hgrows'.length_le, ?_⟩
  · rw [hops, List.take_left]
    exact hbefore
  · rw [hgrows'.position g hgives.lt, hgives.position]
    refine Pass.recordedPosition_of_grows hgrows fun g hg => hown.lt g ?_
    rw [guardsIn_append, guardsIn_cons, hg]
    simp

end Walk

end HotLoop
