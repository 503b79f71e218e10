import HotLoop.Proofs.Kinds.Walk

/-!
# Walks without faults

A walk breaks off with a fault in three places only: at a copy that has nothing to copy, at a guard
that is to count the values of a void variable, and where the numbers of values are used up. None of
them is reached if all arguments and results have values, copies have arguments, and there are as
many numbers left as the walk may need.
-/

namespace HotLoop

/-- The pass breaks off at a broken assumption, and does not give the trace up for what it is. -/
def Rejection.IsFault (e : Rejection) : Prop := ∃ f, e = .fault f

theorem Rejection.not_isFault_invalid (why : InvalidLoop) : ¬ Rejection.IsFault (.invalid why) := by
  simp [IsFault]

/-- Arguments and results have values, and a copy has something to copy. -/
structure Operation.Solid (op : Operation) : Prop where
  args : ∀ a ∈ op.args, a.kind ≠ .void
  result : ∀ r, op.result = some r → r.kind ≠ .void
  copy : op.opcode = .sameAs → ∀ r, op.result = some r → op.args ≠ []

def Forwarding.Solid (t : Forwarding) : Prop := ∀ v a, t.get? v = some a → a.kind ≠ .void

namespace Forwarding.Solid

variable {t : Forwarding}

theorem empty : Forwarding.empty.Solid := by
  intro v a hget
  cases hget

theorem forward (h : t.Solid) {v : Var} {a : Arg} (ha : a.kind ≠ .void) :
    (t.forward v a).Solid := by
  intro w b hget
  rw [get?_forward] at hget
  split at hget
  · exact Option.some.inj hget ▸ ha
  · exact h w b hget

theorem rename (h : t.Solid) {pairs : List (Var × Var)} (hpairs : ∀ e ∈ pairs, e.2.kind ≠ .void) :
    (t.rename pairs).Solid := by
  induction pairs generalizing t with
  | nil => exact h
  | cons e pairs ih =>
    exact ih (h.forward (hpairs e (List.mem_cons_self ..))) fun e he =>
      hpairs e (List.mem_cons_of_mem _ he)

private theorem follow (h : t.Solid) (n : Nat) {a : Arg} (ha : a.kind ≠ .void) :
    (t.follow n a).kind ≠ .void := by
  induction n generalizing a with
  | zero => exact ha
  | succ n ih =>
    cases a with
    | const c => exact ha
    | var v =>
      rw [Forwarding.follow]
      cases hget : t.get? v with
      | none => exact ha
      | some b => exact ih (h v b hget)

theorem resolve (h : t.Solid) {a : Arg} (ha : a.kind ≠ .void) : (t.resolve a).kind ≠ .void :=
  h.follow _ ha

theorem apply (h : t.Solid) {op : Operation} (hop : op.Solid) : (t.apply op).Solid where
  args a ha := by
    obtain ⟨b, hb, rfl⟩ := List.mem_map.mp ha
    exact h.resolve (hop.args b hb)
  result := hop.result
  copy hcopy r hr := by
    have hargs : (t.apply op).args = op.args.map t.resolve := rfl
    rw [hargs, Ne, List.map_eq_nil_iff]
    exact hop.copy hcopy r hr

end Forwarding.Solid

theorem ValueIds.fresh_of_lt {ids : ValueIds} (h : ids.next < limit) (k : Kind) :
    ids.fresh k = .ok (⟨ids.next, k⟩, ⟨ids.next + 1⟩) := if_pos h

section Steps

variable {s : PassSettings} {p p' : Pass} {op : Operation} {ops : List Operation}

private theorem learn_solid {t : Forwarding} (ht : t.Solid) (hop : ∀ a ∈ op.args, a.kind ≠ .void) :
    (Pass.learn t op).Solid := by
  rcases Pass.learn_cases t op with hlearn | ⟨v, c, -, hargs, hlearn⟩
  · rw [hlearn]
    exact ht
  · rw [hlearn]
    exact ht.forward (hop _ (by rw [hargs]; simp))

/-- Behind an operation of a walk nothing is replaced by what has no value either. -/
theorem Pass.Stepped.solid (hstep : Stepped s p p' op) (hmemo : s.memo = .empty)
    (hp : p.forwarding.Solid) (hop : op.Solid) : p'.forwarding.Solid := by
  have happlied := hp.apply hop
  cases hstep with
  | drop _ heq =>
    obtain ⟨deps, rfl⟩ := heq
    exact hp
  | replace r a hfate heq =>
    obtain ⟨deps, rfl⟩ := heq
    refine hp.forward ?_
    rcases (replace_cases hfate).2 with ⟨v, hknown, rfl⟩ | ⟨-, hhead⟩
    · have hkind : (Arg.const v).kind = .int := (kind_of_knownResult? hmemo hknown).2
      rw [hkind]
      exact Kind.noConfusion
    · exact happlied.args a (List.mem_of_mem_head? hhead)
  | keep op' e t hfate hkeeps =>
    obtain ⟨deps, hkeeps⟩ := hkeeps
    obtain ⟨hargs, hresult⟩ : (∀ a ∈ op'.args, a.kind ≠ .void) ∧
        ∀ r, op'.result = some r → r.kind ≠ .void := by
      rcases keep_cases hfate with ⟨rfl, -, -⟩ | ⟨-, rfl⟩
      · exact ⟨happlied.args, happlied.result⟩
      · exact ⟨nofun, nofun⟩
    rw [hkeeps.forwarding]
    refine learn_solid ?_ hargs
    rcases hkeeps.renamed with ⟨-, r, v, hr, hv, -, rfl, -⟩ | ⟨-, -, rfl, -⟩
    · have hkind : some v.kind = some r.kind := by
        have hkind := hkeeps.kind
        rwa [hr, hv] at hkind
      refine hp.forward ?_
      rw [Arg.kind, Option.some.inj hkind]
      exact hresult r hr
    · exact hp

/-- An operation takes one number at most, and none if nothing is renamed. -/
theorem Pass.Stepped.next_le_add (hstep : Stepped s p p' op) :
    p'.shared.values.next ≤ p.shared.values.next + 1 ∧
      (s.renames = false → p'.shared.values = p.shared.values) := by
  cases hstep with
  | drop _ heq =>
    obtain ⟨deps, rfl⟩ := heq
    exact ⟨Nat.le_succ _, fun _ => rfl⟩
  | replace r a _ heq =>
    obtain ⟨deps, rfl⟩ := heq
    exact ⟨Nat.le_succ _, fun _ => rfl⟩
  | keep op' e t _ hkeeps =>
    obtain ⟨deps, hkeeps⟩ := hkeeps
    rcases hkeeps.renamed with ⟨hren, _, _, _, _, _, _, hnext⟩ | ⟨-, -, -, hvalues⟩
    · exact ⟨Nat.le_of_eq hnext, fun hno => by rw [hren] at hno; cases hno⟩
    · exact ⟨by rw [hvalues]; exact Nat.le_succ _, fun _ => hvalues⟩

namespace Pass

theorem fresh_avoids (k : Kind) (h : p.shared.values.next < ValueIds.limit) :
    Avoids Rejection.IsFault (fresh k) p := by
  unfold fresh
  refine .get_bind ?_
  rw [ValueIds.fresh_of_lt h]
  exact .bind (.set trivial) fun _ _ _ => .pure _

private theorem guardFor_avoids (hguard : op.isGuard = true) :
    Avoids Rejection.IsFault (guardFor s op) p := by
  unfold guardFor
  refine .get_bind ?_
  dsimp only
  split
  · split
    · exact .bind (.set trivial) fun _ _ _ => .pure _
    · exact .pure _
  · obtain ⟨kind, hkind⟩ := GuardKind.exists_ofOpCode s.driver hguard
    rw [GuardTable.invent, hkind]
    exact .bind (.set trivial) fun _ _ _ => .pure _

private theorem finishGuard_avoids {recorded : List (Option Var)} (hguard : op.isGuard = true)
    (hargs : ∀ a ∈ op.args, a.kind ≠ .void) :
    Avoids Rejection.IsFault (finishGuard s op recorded) p := by
  unfold finishGuard
  split
  · exact .pure _
  · refine .bind (guardFor_avoids hguard) fun g q _ => .get_bind (.bind (.set trivial) fun _ r _ => ?_)
    split
    · rename_i hcompares
      split
      · exact .bind (.modify trivial) fun _ _ _ => .pure _
      · rename_i hcount
        rcases countPerValue_eq_error hcount with ⟨-, hne⟩ | ⟨-, v, hv, hvoid⟩
        · exact absurd hcompares hne
        · exact absurd hvoid (hargs (.var v) hv)
    · exact .pure _

theorem step_avoids (hp : p.forwarding.Solid) (hop : op.Solid)
    (hroom : s.renames = true → p.shared.values.next < ValueIds.limit) :
    Avoids Rejection.IsFault (step s op) p := by
  have happlied := hp.apply hop
  refine step_goes (fun _ _ _ => trivial) (fun hren k q hq => fresh_avoids k (hq ▸ hroom hren))
    (fun o hguard hargs _ recorded q => finishGuard_avoids hguard fun a ha =>
      happlied.args a (hargs a ha)) fun e he => ?_
  unfold fate at he
  split at he
  · rename_i hcopy
    split at he
    · cases he
    · cases he
    · rename_i r hr hargs
      exact absurd hargs (happlied.copy hcopy r hr)
  · cases he
  · cases he
  · split at he
    · split at he
      · cases he
      · cases he
        exact Rejection.not_isFault_invalid _
      · cases he
    · split at he <;> cases he

theorem run_avoids (hmemo : s.memo = .empty) (hp : p.forwarding.Solid)
    (hops : ∀ op ∈ ops, op.Solid)
    (hroom : s.renames = true → p.shared.values.next + ops.length ≤ ValueIds.limit) :
    Avoids Rejection.IsFault (run s ops) p := by
  induction ops generalizing p with
  | nil => exact .pure _
  | cons op ops ih =>
    have hop := hops op (List.mem_cons_self ..)
    rw [List.length_cons] at hroom
    rw [run]
    split
    · exact .get_bind (.pure _)
    · refine .bind_run (step_avoids hp hop fun hren => ?_) fun _ q hstep => ?_
      · have := hroom hren
        omega
      · have hstepped := step_eq_ok hstep
        refine ih (hstepped.solid hmemo hp hop) (fun o ho => hops o (List.mem_cons_of_mem _ ho))
          fun hren => ?_
        have := hroom hren
        have := hstepped.next_le_add.1
        omega

theorem solid_of_run {last : Option Operation} (hmemo : s.memo = .empty) (hp : p.forwarding.Solid)
    (hops : ∀ op ∈ ops, op.Solid) (hrun : runFrom (run s ops) p = (.ok last, p')) :
    p'.forwarding.Solid ∧ p'.shared.values.next ≤ p.shared.values.next + ops.length ∧
      (s.renames = false → p'.shared.values = p.shared.values) := by
  induction ops generalizing p with
  | nil =>
    cases hrun
    exact ⟨hp, Nat.le_refl _, fun _ => rfl⟩
  | cons op ops ih =>
    cases hfinal : op.isFinal with
    | true =>
      obtain ⟨-, rfl⟩ := run_cons_eq_ok_of_isFinal hfinal hrun
      exact ⟨hp, Nat.le_add_right .., fun _ => rfl⟩
    | false =>
      obtain ⟨q, hstep, hrest⟩ := run_cons_eq_ok hfinal hrun
      obtain ⟨hsolid, hle, hsame⟩ := ih (hstep.solid hmemo hp (hops op (List.mem_cons_self ..)))
        (fun o ho => hops o (List.mem_cons_of_mem _ ho)) hrest
      obtain ⟨hle', hsame'⟩ := hstep.next_le_add
      refine ⟨hsolid, ?_, fun hplain => (hsame hplain).trans (hsame' hplain)⟩
      rw [List.length_cons]
      omega

end Pass

end Steps

section Passes

variable {s : PassSettings} {p : Pass} {inputs : List Var} {ops : List Operation}
  {closing : Operation} {endArgs : List Arg}

theorem Pass.simple_avoids (hmemo : s.memo = .empty) (hplain : s.renames = false)
    (hp : p.forwarding.Solid) (hops : ∀ op ∈ ops, op.Solid) :
    Avoids Rejection.IsFault (Pass.simple s inputs ops) p :=
  .bind (run_avoids hmemo hp hops fun hren => by rw [hplain] at hren; cases hren)
    fun _ _ _ => .get_bind (.pure _)

theorem Pass.preamble_avoids (hmemo : s.memo = .empty) (hplain : s.renames = false)
    (hp : p.forwarding.Solid) (hops : ∀ op ∈ ops, op.Solid) :
    Avoids Rejection.IsFault (Pass.preamble s inputs endArgs ops) p :=
  .bind (run_avoids hmemo hp hops fun hren => by rw [hplain] at hren; cases hren)
    fun _ _ _ => .get_bind (.pure _)

theorem Pass.bridge_avoids (registry : Registry) (anyEntry : Bool) (hmemo : s.memo = .empty)
    (hplain : s.renames = false) (hp : p.forwarding.Solid) (hops : ∀ op ∈ ops, op.Solid) :
    Avoids Rejection.IsFault (Pass.bridge s registry inputs ops anyEntry) p := by
  refine .bind (run_avoids hmemo hp hops fun hren => by rw [hplain] at hren; cases hren)
    fun last q _ => ?_
  split
  · split
    · refine .get_bind ?_
      dsimp only
      split
      · exact .pure _
      · exact .pure _
    · exact .throw (Rejection.not_isFault_invalid _)
  · exact .throw (Rejection.not_isFault_invalid _)

private theorem extendHeaders_avoids (l : List (Arg × Nat)) (header : List Var × List Operation)
    (hroom : p.shared.values.next + l.length ≤ ValueIds.limit) :
    Avoids Rejection.IsFault (l.foldlM (Pass.extendHeader inputs) header) p := by
  induction l generalizing p header with
  | nil => exact .pure _
  | cons a l ih =>
    rw [List.length_cons] at hroom
    rw [List.foldlM_cons]
    unfold Pass.extendHeader
    split
    · exact .bind_of_eq (runFrom_pure _) trivial (ih _ (by omega))
    · rw [bind_assoc]
      refine .bind_run (Pass.fresh_avoids _ (by omega)) fun v q hfresh => ?_
      obtain ⟨-, rfl⟩ := Pass.fresh_eq_ok hfresh
      refine .bind_of_eq (runFrom_pure _) trivial (ih _ ?_)
      dsimp only
      omega

theorem ExtendsHeader.next_le_add {header vs : List Var} {i n n' : Nat} {l : List Arg}
    {cs : List Operation} (h : ExtendsHeader inputs header i n l vs cs n') :
    n' ≤ n + l.length := by
  induction h with
  | nil => exact Nat.le_refl _
  | reuse _ _ ih => rw [List.length_cons]; omega
  | copy _ _ ih => rw [List.length_cons]; omega

/-- The second walk over a loop has numbers for its header and for all results. -/
theorem Pass.peeled_avoids {state : ExportedState} (hmemo : s.memo = .empty)
    (hp : p.forwarding.Solid) (hops : ∀ op ∈ ops, op.Solid)
    (hend : ∀ a ∈ state.endArgs, a.kind ≠ .void)
    (hroom : p.shared.values.next + state.endArgs.length + ops.length ≤ ValueIds.limit) :
    Avoids Rejection.IsFault (Pass.peeled s inputs closing ops state) p := by
  unfold Pass.peeled
  split
  · split
    · exact .throw_bind (Rejection.not_isFault_invalid _)
    · refine .bind_run (extendHeaders_avoids _ _ ?_) fun header q hheader => ?_
      · rw [List.length_zipIdx]
        omega
      · obtain ⟨vars, copies⟩ := header
        obtain ⟨vs, cs, rfl, -, hbuilt, values, rfl⟩ := extendsHeader_of_foldlM hheader
        have hnext := hbuilt.next_le_add
        refine .bind_of_eq (runFrom_modify _) trivial ?_
        refine .bind (run_avoids hmemo (hp.rename fun e he => ?_) hops fun _ => ?_) fun _ r _ => ?_
        · have hvars : e.2.kind ∈ vars.map (·.kind) := List.mem_map_of_mem (List.of_mem_zip he).2
          rw [hbuilt.map_kind] at hvars
          obtain ⟨a, ha, hkind⟩ := List.mem_map.mp hvars
          exact hkind ▸ hend a ha
        · dsimp only at hnext ⊢
          omega
        · refine .get_bind ?_
          dsimp only
          split
          · exact .throw_bind (Rejection.not_isFault_invalid _)
          · exact .bind (.set trivial) fun _ _ _ => .pure _
  · exact .throw (Rejection.not_isFault_invalid _)

end Passes

end HotLoop
