import HotLoop.Proofs.Compile.Issued
import HotLoop.Proofs.Walk.Origins

/-!
# The walks behind delivered code

A loop is made in one walk or in two, and the second starts behind the header that the first has
left. Every guard in the code has been put out in one of these walks, for one of the recorded
operations.
-/

namespace HotLoop

section Coming

variable {walks : Walk → Prop} {t₀ t t' : GuardTable} {ops : List Operation} {g : Guard}
  {walk : Walk} {p : Pass} {last : Option Operation}

/--
The guard `g` has been put out in one of the walks for one of the operations `ops`, and in the table
`t` it stands where the operation has been recorded in `t₀`.
-/
def ComesFrom (walks : Walk → Prop) (t₀ t : GuardTable) (ops : List Operation) (g : Guard) : Prop :=
  ∃ walk i r, walks walk ∧ ops[i]? = some r ∧ walk.PutsOut i g ∧ r.opcode.leavesGuard = true ∧
    g.id < t.records.length ∧ (t.get g).data.position = Pass.recordedPosition t₀ r

namespace ComesFrom

theorem mono (walks' : Walk → Prop) (h : ComesFrom walks t₀ t ops g)
    (hwalks : ∀ walk, walks walk → walks' walk) : ComesFrom walks' t₀ t ops g := by
  obtain ⟨walk, i, r, hwalk, hrest⟩ := h
  exact ⟨walk, i, r, hwalks walk hwalk, hrest⟩

theorem grows (h : ComesFrom walks t₀ t ops g) (hgrows : t.Grows t') :
    ComesFrom walks t₀ t' ops g := by
  obtain ⟨walk, i, r, hwalk, hr, hputs, hleaves, hlt, hposition⟩ := h
  exact ⟨walk, i, r, hwalk, hr, hputs, hleaves, Nat.lt_of_lt_of_le hlt hgrows.length_le,
    (hgrows.position g hlt).trans hposition⟩

theorem recordedBefore (h : ComesFrom walks t' t ops g) (hown : OwnGuards t₀ ops)
    (hgrows : t₀.Grows t') : ComesFrom walks t₀ t ops g := by
  obtain ⟨walk, i, r, hwalk, hr, hputs, hleaves, hlt, hposition⟩ := h
  refine ⟨walk, i, r, hwalk, hr, hputs, hleaves, hlt, hposition.trans ?_⟩
  refine Pass.recordedPosition_of_grows hgrows fun g hg => hown.lt g ?_
  obtain ⟨hguard, hdescr⟩ := ownGuard?_eq_some.mp hg
  exact mem_guardsIn.mpr ⟨r, List.mem_of_getElem? hr, hguard, hdescr⟩

theorem dropLast {closing : Operation} (h : ComesFrom walks t₀ t (ops ++ [closing]) g)
    (hclosing : closing.isFinal = true) : ComesFrom walks t₀ t ops g := by
  obtain ⟨walk, i, r, hwalk, hr, hputs, hleaves, hrest⟩ := h
  refine ⟨walk, i, r, hwalk, ?_, hputs, hleaves, hrest⟩
  by_cases hi : i < ops.length
  · rwa [List.getElem?_append_left hi] at hr
  · rw [List.getElem?_append_right (Nat.le_of_not_lt hi), List.getElem?_singleton] at hr
    split at hr
    · cases hr
      have hfinal : closing.opcode.isFinal = true := hclosing
      cases hop : closing.opcode <;> rw [hop] at hfinal hleaves <;> cases hfinal <;> cases hleaves
    · cases hr

end ComesFrom

theorem comesFrom_of_run (walk : Walk) (hout : walk.start.out = [])
    (hown : OwnGuards walk.start.shared.guards walk.ops)
    (hrun : runFrom (Pass.run walk.settings walk.ops) walk.start = (.ok last, p))
    (hg : g ∈ guardsIn p.out) :
    ComesFrom (· = walk) walk.start.shared.guards p.shared.guards walk.ops g := by
  obtain ⟨i, r, hr, hputs, hrest⟩ :=
    Walk.exists_putsOut hown hrun (by rw [hout, List.nil_append]) hg
  exact ⟨walk, i, r, rfl, hr, hputs, hrest⟩

end Coming

namespace Pass

variable {s : PassSettings} {p p' : Pass} {inputs : List Var} {ops : List Operation}
  {result : Optimized} {g : Guard}

theorem simple_comesFrom (hp : p.out = []) (hown : OwnGuards p.shared.guards ops)
    (h : runFrom (simple s inputs ops) p = (.ok result, p')) (hg : g ∈ guardsIn result.operations) :
    ComesFrom (· = ⟨s, p, ops⟩) p.shared.guards p'.shared.guards ops g := by
  obtain ⟨rfl, last, hrun⟩ := simple_eq_ok h
  rw [guardsIn_append, guardsIn_eq_nil not_isGuard_of_find?_isFinal, List.append_nil] at hg
  exact comesFrom_of_run ⟨s, p, ops⟩ hp hown hrun hg

theorem bridge_comesFrom {registry : Registry} {anyEntry : Bool} (hp : p.out = [])
    (hown : OwnGuards p.shared.guards ops)
    (h : runFrom (bridge s registry inputs ops anyEntry) p = (.ok result, p'))
    (hg : g ∈ guardsIn result.operations) :
    ComesFrom (· = ⟨s, p, ops⟩) p.shared.guards p'.shared.guards ops g := by
  obtain ⟨jump, hrun, hop, hto⟩ := bridge_eq_ok h
  cases hto with
  | entered unit entry =>
    have hclosing : guardsIn [{ jump with descr := some (.target entry) }] = [] := by
      refine guardsIn_eq_nil fun op hop' => ?_
      rw [List.mem_singleton.mp hop', Operation.isGuard, hop]
      rfl
    rw [guardsIn_append, hclosing, List.append_nil] at hg
    exact comesFrom_of_run ⟨s, p, ops⟩ hp hown hrun hg
  | waiting => exact comesFrom_of_run ⟨s, p, ops⟩ hp hown hrun hg

/-- The second walk over a loop starts where the header has been made. -/
theorem peeled_comesFrom {closing : Operation} {state : ExportedState} (hp : p.out = [])
    (hclosing : closing.isGuard = false) (hown : OwnGuards p.shared.guards ops)
    (h : runFrom (peeled s inputs closing ops state) p = (.ok result, p'))
    (hg : g ∈ guardsIn result.operations) :
    ∃ q, runFrom (enterLoop inputs state) p = (.ok (), q) ∧
      ComesFrom (· = ⟨{ s with renames := true }, q, ops⟩) p.shared.guards p'.shared.guards ops g := by
  obtain ⟨header, q, r, hpeels⟩ := peels_of_peeled h
  obtain ⟨last, hrun⟩ := hpeels.run
  obtain ⟨hguards, hout, -⟩ := hpeels.start
  have hlast :
      guardsIn [{ r.forwarding.apply closing with descr := some (.target header.entry) }] = [] := by
    refine guardsIn_eq_nil fun op hop => ?_
    rw [List.mem_singleton.mp hop]
    exact hclosing
  rw [hpeels.operations, guardsIn_append, hlast, List.append_nil] at hg
  refine ⟨q, hpeels.enter, ?_⟩
  rw [← hguards, hpeels.guards]
  exact comesFrom_of_run ⟨{ s with renames := true }, q, ops⟩ (hout.trans hp)
    (hguards ▸ hown) hrun hg

end Pass

namespace Workbench

variable {w : Workbench} {vars : List Var} {ops code : List Operation} {jumpArgs : List Arg}
  {entry : EntryPoint} {t : GuardTable} {deps : FieldSet} {g : Guard}

inductive LoopWalk (w : Workbench) (vars : List Var) (ops : List Operation) (jumpArgs : List Arg)
    (unit : UnitHandle) : Walk → Prop where
  | once (opts : OptSet) : LoopWalk w vars ops jumpArgs unit
      ⟨w.settings opts, .ofShared w.shared, ops ++ [.jump jumpArgs (.cell unit)]⟩
  | preamble (opts : OptSet) : LoopWalk w vars ops jumpArgs unit
      ⟨w.settings opts, .ofShared w.shared, ops⟩
  | peeled (opts : OptSet) (state : ExportedState) (pre : List Operation) (p q : Pass)
      (hpre : runFrom (Pass.preamble (w.settings opts) vars jumpArgs ops) (.ofShared w.shared) =
        (.ok (state, pre), p))
      (henter : runFrom (Pass.enterLoop vars state) (.ofShared p.shared) = (.ok (), q)) :
      LoopWalk w vars ops jumpArgs unit ⟨{ w.settings opts with renames := true }, q, ops⟩

theorem LoopCode.comesFrom (h : LoopCode w vars ops jumpArgs entry t deps code)
    (hown : OwnGuards w.context.guards ops) (hg : g ∈ guardsIn code) :
    ComesFrom (LoopWalk w vars ops jumpArgs entry.owner) w.context.guards t ops g := by
  cases h with
  | once opts result p code' hwalk hredirect ht =>
    have hown' : OwnGuards w.context.guards (ops ++ [.jump jumpArgs (.cell entry.owner)]) :=
      hown.append fun op hop => by rw [List.mem_singleton.mp hop]; rfl
    have hg' : g ∈ guardsIn result.operations := (guardsIn_redirectJump? hredirect).1 ▸ hg
    have hcomes := Pass.simple_comesFrom (p := .ofShared w.shared) rfl hown' hwalk hg'
    subst ht
    refine (hcomes.dropLast rfl).mono _ fun walk hwalk => ?_
    rw [hwalk]
    exact .once opts
  | unrolled opts state pre p₁ result header p₂ hpre hpeeled hheader ht =>
    subst ht
    have hgrows := (Pass.preamble_grows (w.settings opts) (.ofShared w.shared) vars jumpArgs ops).1
    rw [hpre] at hgrows
    have hgrows' := (Pass.peeled_grows (w.settings opts) (.ofShared p₁.shared) vars
      (.jump jumpArgs (.cell entry.owner)) ops state).1
    rw [hpeeled] at hgrows'
    obtain ⟨header', q, r, hpeels⟩ := Pass.peels_of_peeled hpeeled
    cases hpeels.isHeader.symm.trans hheader
    have hcopies : guardsIn (header.copies ++ [header.label]) = [] := by
      rw [guardsIn_append, guardsIn_eq_nil fun op hop => (hpeels.copies op hop).1]
      rfl
    have hcode : guardsIn (.label vars (.target entry) ::
        (pre ++ header.copies ++ [header.label] ++ result.operations)) =
        guardsIn pre ++ guardsIn result.operations := by
      rw [List.append_assoc pre, guardsIn_cons, guardsIn_append, guardsIn_append, hcopies,
        List.append_nil]
      rfl
    rw [hcode] at hg
    rcases List.mem_append.mp hg with hg | hg
    · obtain ⟨last, hrun, -, rfl⟩ := preamble_eq_ok hpre
      have hcomes := comesFrom_of_run ⟨w.settings opts, .ofShared w.shared, ops⟩ rfl hown
        hrun hg
      refine (hcomes.grows hgrows').mono _ fun walk hwalk => ?_
      rw [hwalk]
      exact .preamble opts
    · obtain ⟨q', henter, hcomes⟩ := Pass.peeled_comesFrom (p := .ofShared p₁.shared) rfl rfl
        (hown.grows hgrows) hpeeled hg
      refine (hcomes.recordedBefore hown hgrows).mono _ fun walk hwalk => ?_
      rw [hwalk]
      exact .peeled opts state pre p₁ q' hpre henter

theorem comesFrom_of_tracePass {resumeKey : ResumeKey} {s : PassSettings} {result : Optimized}
    {p : Pass} (hown : OwnGuards w.context.guards w.session.history.operations)
    (h : runFrom (w.tracePass resumeKey s) (.ofShared w.shared) = (.ok result, p))
    (hg : g ∈ guardsIn result.operations) :
    ComesFrom (· = ⟨s, .ofShared w.shared, w.session.history.operations⟩) w.context.guards
      p.shared.guards w.session.history.operations g := by
  rw [tracePass] at h
  split at h
  · exact Pass.bridge_comesFrom rfl hown h hg
  · exact Pass.simple_comesFrom rfl hown h hg

end Workbench

end HotLoop
