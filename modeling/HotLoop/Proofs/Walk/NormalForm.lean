import HotLoop.Proofs.Consistency.Walk
import HotLoop.Proofs.Walk.Request

/-!
# What a walk leaves is in normal form

Nothing is left in the output of a walk that the walk could have decided: no copies, no operations
or guards on constants, no second guard for the quasi-immutable fields, and no variable whose value
a guard in front has made known. For the last the table of replacements has to be behind all that
has been put out so far: what a guard teaches is replaced from there on, and nothing that is put out
mentions what is replaced.
-/

namespace HotLoop

/--
The operations of a list define every number once, and no number before its first use; `ids` are
defined to begin with.
-/
def DefinesOnce (ids : List Nat) : List Operation → Prop
  | [] => True
  | op :: rest =>
    (∀ v ∈ op.uses, v.id ∈ ids) ∧ (∀ r ∈ op.result, r.id ∉ ids) ∧
      DefinesOnce ((op.result.map (·.id)).toList ++ ids) rest

instance DefinesOnce.decidable (ids : List Nat) :
    (ops : List Operation) → Decidable (DefinesOnce ids ops)
  | [] => .isTrue trivial
  | op :: rest =>
    have := DefinesOnce.decidable ((op.result.map (·.id)).toList ++ ids) rest
    inferInstanceAs (Decidable (_ ∧ _ ∧ _))

/-- An operation whose result may be known beforehand says what its result is. -/
def Operation.Named (op : Operation) : Prop :=
  op.opcode.isFoldable = true ∨ op.opcode = .callPure → op.result ≠ none

instance (op : Operation) : Decidable op.Named := inferInstanceAs (Decidable (_ → _))

/-- A recorded list of operations, the one that ends it included. -/
structure WellFormedOps (inputs : List Var) (ops : List Operation) : Prop where
  once : DefinesOnce (inputs.map (·.id)) ops
  exits : ∀ op ∈ ops, op.CarriesExits
  named : ∀ op ∈ ops, op.Named

/-- `op` does not mention a variable whose value the guard `e` makes known. -/
def Operation.Forgets (e op : Operation) : Prop :=
  ∀ v c, e.opcode = .guardValue → e.args = [.var v, .const c] → ∀ w ∈ op.uses, w.id ≠ v.id

/-- Nothing is left to be decided about the operations under the settings `s`. -/
structure Normal (s : PassSettings) (ops : List Operation) : Prop where
  noCopy : ∀ op ∈ ops, op.opcode ≠ .sameAs
  noField : ∀ op ∈ ops, op.opcode ≠ .quasiimmutField
  guardOnce : ops.countP (·.opcode = .guardNotInvalidated) ≤ 1
  undecided : ∀ op ∈ ops, guardOutcome? op.opcode op.args = none
  unfolded : s.opts.contains .simplify = true → ∀ op ∈ ops, op.opcode.isFoldable = true →
    foldArgs? op.opcode op.args = none
  unremembered : s.opts.contains .pure = true → ∀ op ∈ ops, op.opcode = .callPure →
    s.memo.lookup? op.args = none
  forgetful : ops.Pairwise Operation.Forgets

section Decisions

variable {s : PassSettings} {guarded : Bool} {op op' : Operation}

/-- Nothing is known about an operation that would let it vanish. -/
structure Operation.Stays (s : PassSettings) (guarded : Bool) (op : Operation) : Prop where
  noCopy : op.opcode ≠ .sameAs
  noField : op.opcode ≠ .quasiimmutField
  unguarded : op.opcode = .guardNotInvalidated → guarded = false
  undecided : guardOutcome? op.opcode op.args = none
  unknown : op.result = none ∨ knownResult? s op = none

theorem guardOutcome?_eq_none {op : OpCode} (h : op.isCheck = false) (args : List Arg) :
    guardOutcome? op args = none := by
  cases hout : guardOutcome? op args with
  | none => rfl
  | some b =>
    rw [isCheck_of_guardOutcome? hout] at h
    cases h

private theorem guardOutcome?_guardNotInvalidated (args : List Arg) :
    guardOutcome? .guardNotInvalidated args = none := by
  unfold guardOutcome?
  cases constArgs? args <;> rfl

theorem knownResult?_eq_none (hfold : op.opcode.isFoldable = false) (hcall : op.opcode ≠ .callPure) :
    knownResult? s op = none := by
  rw [knownResult?, if_neg hcall, hfold]
  rfl

theorem stays_of_keep (h : fate s guarded op = .ok (.keep op')) : op'.Stays s guarded := by
  unfold fate at h
  split at h
  · split at h <;> cases h
  · cases guarded with
    | true => cases h
    | false =>
      cases h
      exact ⟨by simp, by simp, fun _ => rfl, guardOutcome?_guardNotInvalidated _, .inl rfl⟩
  · rename_i hop
    cases guarded with
    | true => cases h
    | false =>
      cases h
      exact ⟨by simp [hop], by simp [hop], fun _ => rfl,
        hop ▸ guardOutcome?_guardNotInvalidated _,
        .inr (knownResult?_eq_none (by rw [hop]; rfl) (by simp [hop]))⟩
  · rename_i hsame hquasi hnot
    split at h
    · rename_i hguard
      split at h
      · cases h
      · cases h
      · rename_i hnone
        cases h
        have hfold : op.opcode.isFoldable = false := by revert hguard; cases op.opcode <;> decide
        exact ⟨hsame, hquasi, fun heq => absurd heq hnot, hnone,
          .inr (knownResult?_eq_none hfold fun heq => by rw [heq] at hguard; cases hguard)⟩
    · rename_i hguard
      have hcheck := OpCode.isCheck_eq_false_of_not_isGuard (by simpa using hguard) hquasi
      split at h
      · cases h
      · rename_i hunknown
        cases h
        refine ⟨hsame, hquasi, fun heq => absurd heq hnot, guardOutcome?_eq_none hcheck _, ?_⟩
        cases hr : op.result with
        | none => exact .inl rfl
        | some r => exact .inr (Option.eq_none_iff_forall_ne_some.mpr fun v hv => hunknown r v hr hv)

theorem fate_of_stays (h : op.Stays s guarded) : fate s guarded op = .ok (.keep op) := by
  unfold fate
  split
  · exact absurd ‹_› h.noCopy
  · exact absurd ‹_› h.noField
  · rw [h.unguarded ‹_›]
    rfl
  · rw [h.undecided]
    split
    · rfl
    · split
      · rename_i r v hr hv
        rcases h.unknown with hnone | hnone
        · rw [hr] at hnone
          cases hnone
        · rw [hv] at hnone
          cases hnone
      · rfl

theorem Operation.Stays.knownResult?_eq_none (h : op.Stays s guarded) (hnamed : op.Named) :
    knownResult? s op = none := by
  rcases h.unknown with hresult | hunknown
  · have hnot := fun hyes => hnamed hyes hresult
    exact HotLoop.knownResult?_eq_none (by simpa using fun hfold => hnot (.inl hfold))
      fun hcall => hnot (.inr hcall)
  · exact hunknown

end Decisions

section Ends

variable {t : Forwarding} {op : Operation}

theorem Forwarding.Grounded.get?_of_mem_apply (h : t.Grounded) {w : Var}
    (hw : .var w ∈ (t.apply op).args) : t.get? w = none := by
  obtain ⟨a, -, ha⟩ := List.mem_map.mp hw
  exact h.isEnd_resolve a w ha

theorem Forwarding.Grounded.get?_of_mem_boxes (h : t.Grounded) {slots : List (Option Var)} {w : Var}
    (hw : some w ∈ (NumberedSlots.ofSlots t slots).boxes) : t.get? w = none := by
  rw [NumberedSlots.boxes_ofSlots] at hw
  obtain ⟨slot, -, hslot⟩ := List.mem_map.mp hw
  obtain ⟨a, ha, haw⟩ := Option.bind_eq_some_iff.mp hslot
  obtain ⟨v, -, rfl⟩ := Option.map_eq_some_iff.mp ha
  exact h.isEnd_resolve (.var v) w (Arg.var?_eq_some_iff.mp haw)

/-- Where nothing is replaced the numbered slots keep the variables that they have. -/
theorem boxes_eq_self {slots : List (Option Var)} (h : ∀ v, some v ∈ slots → t.get? v = none) :
    (NumberedSlots.ofSlots t slots).boxes = slots := by
  rw [NumberedSlots.boxes_ofSlots]
  refine (List.map_congr_left fun slot hslot => ?_).trans (List.map_id _)
  cases slot with
  | none => rfl
  | some v =>
    rw [NumberedSlots.meaning, Option.map_some, Forwarding.resolve_of_get?_none (h v hslot)]
    rfl

end Ends

/-- A guard that does not leave for good has got what a walk gives to it. -/
structure Operation.Finished (op : Operation) : Prop where
  guard : ∃ g, op.descr = some (.guard g)
  slots : op.failArgs = some op.failSlots
  countable : op.opcode = .guardValue → op.Countable

structure Operation.Settled (s : PassSettings) (op : Operation) : Prop where
  stays : op.Stays s false
  unknown : knownResult? s op = none
  finished : op.isGuard = true → (∀ e, op.descr ≠ some (.final e)) → op.Finished

/-- What a walk has put out, and what it replaces, when the numbers `ids` have been defined. -/
structure Settles (s : PassSettings) (p : Pass) (ids : List Nat) : Prop where
  grounded : p.forwarding.Grounded
  values : ∀ v w, p.forwarding.get? v = some (.var w) → w.id ∈ ids
  settled : ∀ e ∈ p.out, e.Settled s
  guardOnce : p.out.countP (·.opcode = .guardNotInvalidated) ≤ p.guarded.toNat
  forgetful : p.out.Pairwise Operation.Forgets
  /-- No chain ends in a variable whose value a guard has made known. -/
  replaced : ∀ e ∈ p.out, ∀ v c, e.opcode = .guardValue → e.args = [.var v, .const c] →
    p.forwarding.get? v ≠ none

namespace Settles

variable {s : PassSettings} {p p' : Pass} {ids ids' : List Nat} {op op' e : Operation}

theorem ofShared (s : PassSettings) (shared : OptState) (ids : List Nat) :
    Settles s (.ofShared shared) ids where
  grounded := Forwarding.grounded_empty
  values _ _ hget := by cases hget
  settled _ he := absurd he List.not_mem_nil
  guardOnce := Nat.zero_le _
  forgetful := .nil
  replaced _ he := absurd he List.not_mem_nil

private theorem of_out_eq (h : Settles s p ids) (hgrounded : p'.forwarding.Grounded)
    (hvalues : ∀ v w, p'.forwarding.get? v = some (.var w) → w.id ∈ ids') (hout : p'.out = p.out)
    (hguarded : p'.guarded = p.guarded)
    (hstays : ∀ v, p.forwarding.get? v ≠ none → p'.forwarding.get? v ≠ none) :
    Settles s p' ids' where
  grounded := hgrounded
  values := hvalues
  settled := hout ▸ h.settled
  guardOnce := by rw [hout, hguarded]; exact h.guardOnce
  forgetful := hout ▸ h.forgetful
  replaced e he v c hop hargs := hstays v (h.replaced e (hout ▸ he) v c hop hargs)

private theorem replace (h : Settles s p ids) (hids : ids ⊆ ids')
    (huses : ∀ v ∈ op.uses, v.id ∈ ids) (hresult : ∀ r ∈ op.result, r.id ∉ ids) {r : Var} {a : Arg}
    (hfate : fate s p.guarded (p.forwarding.apply op) = .ok (.replace r a)) (deps : FieldSet) :
    Settles s { p with deps, forwarding := p.forwarding.forward r a } ids' := by
  obtain ⟨hdef, hknown⟩ := replace_cases hfate
  have hr : op.result = some r := result_of_defines? hdef
  have hend : p.forwarding.IsEnd a ∧ ∀ w, a = .var w → w.id ∈ ids := by
    rcases hknown with ⟨c, -, rfl⟩ | ⟨-, hhead⟩
    · exact ⟨Forwarding.isEnd_const _ c, fun w hw => by cases hw⟩
    · obtain ⟨x, hx, rfl⟩ := List.mem_map.mp (List.mem_of_mem_head? hhead)
      refine ⟨h.grounded.isEnd_resolve x, fun w hw => ?_⟩
      obtain ⟨v, rfl⟩ := Forwarding.exists_var_of_resolve hw
      have hv : v.id ∈ ids := huses v (mem_uses_of_mem_args hx)
      exact Forwarding.resolve_of_values (P := (·.id ∈ ids)) h.values hv hw
  refine h.of_out_eq ?_ (fun v w hget => ?_) rfl rfl fun v => Forwarding.get?_forward_ne_none
  · exact h.grounded.forward hend.1 fun w hw hid => hresult r hr (hid ▸ hend.2 w hw)
  · rw [Forwarding.get?_forward] at hget
    split at hget
    · exact hids (hend.2 w (Option.some.inj hget))
    · exact hids (h.values v w hget)

section Keeping

variable {t : Forwarding} {deps : FieldSet} {guarded : Bool}

private theorem plain_of_keeps (hplain : s.renames = false)
    (hkeeps : Pass.Keeps s { p with deps, guarded } p' op' op.failSlots t e) :
    e.result = op'.result ∧ t = p.forwarding := by
  rcases hkeeps.renamed with ⟨hren, -⟩ | ⟨-, hresult, rfl, -⟩
  · rw [hplain] at hren
    cases hren
  · exact ⟨hresult, rfl⟩

private theorem get?_of_mem_uses (ht : p.forwarding.Grounded) (hplain : s.renames = false)
    (hexits : op.CarriesExits)
    (hfate : fate s p.guarded (p.forwarding.apply op) = .ok (.keep op'))
    (hkeeps : Pass.Keeps s { p with deps, guarded } p' op' op.failSlots t e) {w : Var}
    (hw : w ∈ e.uses) : p.forwarding.get? w = none := by
  obtain ⟨-, rfl⟩ := plain_of_keeps hplain hkeeps
  rcases mem_uses_iff.mp hw with harg | hslot
  · rw [hkeeps.args] at harg
    rcases keep_cases hfate with ⟨rfl, -, -⟩ | ⟨-, rfl⟩
    · exact ht.get?_of_mem_apply harg
    · cases harg
  by_cases hhands : op'.isGuard = true ∧ ∀ e, op'.descr ≠ some (.final e)
  · rw [Operation.failSlots, (hkeeps.finishes hhands.1).slots hhands.2] at hslot
    exact ht.get?_of_mem_boxes hslot
  -- any other operation has nothing to hand over
  · have hfailArgs : e.failArgs = op'.failArgs := by
      cases hguard : op'.isGuard with
      | true =>
        obtain ⟨e', hfinal⟩ : ∃ e', op'.descr = some (.final e') := by simpa [hguard] using hhands
        rw [(hkeeps.finishes hguard).final e' hfinal]
      | false => rw [hkeeps.same hguard]
    rcases keep_cases hfate with ⟨rfl, hquasi, -⟩ | ⟨-, rfl⟩
    · have hnil : op.failVars = [] := by
        by_contra hne
        exact (hexits hne).elim hquasi hhands
      rw [Operation.failSlots, hfailArgs, ← Operation.failSlots, ← mem_failVars_iff,
        Forwarding.failVars_apply_eq_nil hnil] at hslot
      cases hslot
    · exact absurd ⟨rfl, fun e he => by cases he⟩ hhands

private theorem settled_of_keeps (hplain : s.renames = false) (hnamed : op.Named)
    (hfate : fate s p.guarded (p.forwarding.apply op) = .ok (.keep op'))
    (hkeeps : Pass.Keeps s { p with deps, guarded } p' op' op.failSlots t e) : e.Settled s := by
  obtain ⟨hresult, rfl⟩ := plain_of_keeps hplain hkeeps
  have hstays := stays_of_keep hfate
  have hnamed' : op'.Named := by
    rcases keep_cases hfate with ⟨rfl, -, -⟩ | ⟨-, rfl⟩
    · exact hnamed
    · exact fun hyes => by rcases hyes with hyes | hyes <;> cases hyes
  have hknown : knownResult? s e = knownResult? s op' := by
    simp only [knownResult?, hkeeps.opcode, hkeeps.args]
  refine ⟨⟨?_, ?_, fun _ => rfl, ?_, ?_⟩, ?_, fun hguard hstay => ?_⟩
  · rw [hkeeps.opcode]
    exact hstays.noCopy
  · rw [hkeeps.opcode]
    exact hstays.noField
  · rw [hkeeps.opcode, hkeeps.args]
    exact hstays.undecided
  · rw [hresult, hknown]
    exact hstays.unknown
  · rw [hknown]
    exact hstays.knownResult?_eq_none hnamed'
  · have hfinishes := hkeeps.finishes (by rwa [Operation.isGuard, hkeeps.opcode] at hguard)
    have hstay' : ∀ e', op'.descr ≠ some (.final e') := by
      intro e' hfinal
      refine hstay e' ?_
      rw [hfinishes.final e' hfinal]
      exact hfinal
    obtain ⟨g, hg, -⟩ := hfinishes.descr hstay'
    have hslots := hfinishes.slots hstay'
    refine ⟨⟨g, hg⟩, ?_, fun hop => hfinishes.countable hstay' (hkeeps.opcode ▸ hop)⟩
    rw [Operation.failSlots, hslots]
    rfl

private theorem guardOnce_of_keeps (h : Settles s p ids)
    (hfate : fate s p.guarded (p.forwarding.apply op) = .ok (.keep op'))
    (hkeeps : Pass.Keeps s { p with deps, guarded := p.guarded || op.guardsFields } p' op'
      op.failSlots t e) :
    p'.out.countP (·.opcode = .guardNotInvalidated) ≤ p'.guarded.toNat := by
  have honce := h.guardOnce
  rw [hkeeps.out, hkeeps.guarded, List.countP_append, List.countP_singleton]
  by_cases hop : e.opcode = .guardNotInvalidated
  · have hopen : p.guarded = false := (stays_of_keep hfate).unguarded (hkeeps.opcode ▸ hop)
    have hfields : op.guardsFields = true := by
      rcases keep_cases hfate with ⟨rfl, -, -⟩ | ⟨hquasi, -⟩
      · have hcode : op.opcode = .guardNotInvalidated := hkeeps.opcode ▸ hop
        simp [Operation.guardsFields, hcode]
      · have hcode : op.opcode = .quasiimmutField := hquasi
        simp [Operation.guardsFields, hcode]
    rw [hopen] at honce
    simpa [hop, hopen, hfields] using honce
  · have hle : p.guarded.toNat ≤ (p.guarded || op.guardsFields).toNat := by
      cases p.guarded <;> simp
    simpa [hop] using Nat.le_trans honce hle

private theorem keep (h : Settles s p ids) (hids : ids ⊆ ids') (hplain : s.renames = false)
    (hexits : op.CarriesExits) (hnamed : op.Named)
    (hfate : fate s p.guarded (p.forwarding.apply op) = .ok (.keep op'))
    (hkeeps : Pass.Keeps s { p with deps, guarded := p.guarded || op.guardsFields } p' op'
      op.failSlots t e) : Settles s p' ids' := by
  have huses := fun w => get?_of_mem_uses (w := w) h.grounded hplain hexits hfate hkeeps
  have hkept := fun v => (Pass.Stepped.keep op' e t hfate ⟨_, hkeeps⟩).get?_ne_none (v := v)
  obtain ⟨-, rfl⟩ := plain_of_keeps hplain hkeeps
  have hforwarding := hkeeps.forwarding
  refine ⟨?_, fun v w hget => hids ?_, ?_, h.guardOnce_of_keeps hfate hkeeps, ?_, ?_⟩
  · rcases Pass.learn_cases p.forwarding op' with hlearn | ⟨v, c, -, -, hlearn⟩
    · rw [hforwarding, hlearn]
      exact h.grounded
    · rw [hforwarding, hlearn]
      exact h.grounded.forward (Forwarding.isEnd_const _ c) fun w hw => by cases hw
  · rw [hforwarding] at hget
    rcases Pass.learn_cases p.forwarding op' with hlearn | ⟨u, c, -, -, hlearn⟩
    · rw [hlearn] at hget
      exact h.values v w hget
    · rw [hlearn, Forwarding.get?_forward] at hget
      split at hget
      · cases hget
      · exact h.values v w hget
  · rw [hkeeps.out]
    intro o ho
    rcases List.mem_append.mp ho with ho | ho
    · exact h.settled o ho
    · rw [List.mem_singleton.mp ho]
      exact settled_of_keeps hplain hnamed hfate hkeeps
  · rw [hkeeps.out]
    refine List.pairwise_append.mpr ⟨h.forgetful, List.pairwise_singleton .., fun o ho o' ho' => ?_⟩
    intro v c hop hargs w hw hid
    have hends : p.forwarding.get? w = none := huses w (List.mem_singleton.mp ho' ▸ hw)
    rw [Forwarding.get?, hid] at hends
    exact h.replaced o ho v c hop hargs hends
  · rw [hkeeps.out]
    intro o ho v c hop hargs
    rcases List.mem_append.mp ho with ho | ho
    · exact hkept v (h.replaced o ho v c hop hargs)
    · rw [List.mem_singleton.mp ho, hkeeps.opcode] at hop
      rw [List.mem_singleton.mp ho, hkeeps.args] at hargs
      have hlearned := Pass.learned?_eq_some_iff.mpr ⟨hop, c, hargs, rfl⟩
      rw [hforwarding, Pass.learn, hlearned]
      simp [Forwarding.get?_forward]

end Keeping

theorem step (h : Settles s p ids) (hids : ids ⊆ ids') (hplain : s.renames = false)
    (huses : ∀ v ∈ op.uses, v.id ∈ ids) (hresult : ∀ r ∈ op.result, r.id ∉ ids)
    (hexits : op.CarriesExits) (hnamed : op.Named) (hstep : Pass.Stepped s p p' op) :
    Settles s p' ids' := by
  cases hstep with
  | drop _ heq =>
    obtain ⟨deps, rfl⟩ := heq
    exact h.of_out_eq h.grounded (fun v w hget => hids (h.values v w hget)) rfl rfl fun _ => id
  | replace r a hfate heq =>
    obtain ⟨deps, rfl⟩ := heq
    exact h.replace hids huses hresult hfate deps
  | keep op' e t hfate hkeeps =>
    obtain ⟨deps, hkeeps⟩ := hkeeps
    exact h.keep hids hplain hexits hnamed hfate hkeeps

/-- A walk leaves its output in normal form. -/
theorem of_run {ops : List Operation} {last : Option Operation} (h : Settles s p ids)
    (hplain : s.renames = false) (honce : DefinesOnce ids ops) (hexits : ∀ op ∈ ops, op.CarriesExits)
    (hnamed : ∀ op ∈ ops, op.Named) (hrun : runFrom (Pass.run s ops) p = (.ok last, p')) :
    ∃ ids', Settles s p' ids' := by
  induction ops generalizing p ids with
  | nil =>
    cases hrun
    exact ⟨ids, h⟩
  | cons op ops ih =>
    cases hfinal : op.isFinal with
    | true =>
      obtain ⟨-, rfl⟩ := Pass.run_cons_eq_ok_of_isFinal hfinal hrun
      exact ⟨ids, h⟩
    | false =>
      obtain ⟨q, hstepped, hrest⟩ := Pass.run_cons_eq_ok hfinal hrun
      obtain ⟨huses, hresult, honce⟩ := honce
      exact ih (h.step (List.subset_append_right _ ids) hplain huses hresult
          (hexits op (List.mem_cons_self ..)) (hnamed op (List.mem_cons_self ..)) hstepped) honce
        (fun o ho => hexits o (List.mem_cons_of_mem _ ho))
        (fun o ho => hnamed o (List.mem_cons_of_mem _ ho)) hrest

end Settles

section Output

variable {s : PassSettings} {p p' : Pass} {ids : List Nat} {op : Operation}
  {last : Option Operation}

private theorem undecided_of_isFinal (hop : op.isFinal = true) :
    op.Stays s false ∧ knownResult? s op = none ∧ op.opcode ≠ .guardNotInvalidated := by
  obtain ⟨hcheck, hfold, hcall, hsame, hquasi, hnot⟩ : op.opcode.isCheck = false ∧
      op.opcode.isFoldable = false ∧ op.opcode ≠ .callPure ∧ op.opcode ≠ .sameAs ∧
      op.opcode ≠ .quasiimmutField ∧ op.opcode ≠ .guardNotInvalidated := by
    unfold Operation.isFinal at hop
    revert hop
    cases op.opcode <;> decide
  have hknown := knownResult?_eq_none (s := s) hfold hcall
  exact ⟨⟨hsame, hquasi, fun _ => rfl, guardOutcome?_eq_none hcheck _, .inr hknown⟩, hknown, hnot⟩

/-- Together with an operation that ends the trace the output is in normal form. -/
theorem Settles.normal (h : Settles s p ids) (hlast : ∀ op ∈ last, op.isFinal = true)
    (hends : ∀ op ∈ last, ∀ w ∈ op.uses, p.forwarding.get? w = none) :
    Normal s (p.out ++ last.toList) := by
  have hall : ∀ op ∈ p.out ++ last.toList, op.Stays s false ∧ knownResult? s op = none := by
    intro op hop
    rcases List.mem_append.mp hop with hop | hop
    · exact ⟨(h.settled op hop).stays, (h.settled op hop).unknown⟩
    · obtain ⟨hstays, hknown, -⟩ := undecided_of_isFinal (s := s) (hlast op (by simpa using hop))
      exact ⟨hstays, hknown⟩
  refine ⟨fun op hop => (hall op hop).1.noCopy, fun op hop => (hall op hop).1.noField, ?_,
    fun op hop => (hall op hop).1.undecided, fun hsimplify op hop hfold => ?_,
    fun hpure op hop hcall => ?_, ?_⟩
  · have hzero : last.toList.countP (·.opcode = .guardNotInvalidated) = 0 := by
      refine List.countP_eq_zero.mpr fun op hop => ?_
      simpa using (undecided_of_isFinal (s := s) (hlast op (by simpa using hop))).2.2
    rw [List.countP_append, hzero]
    exact Nat.le_trans h.guardOnce (Bool.toNat_le _)
  · have hknown := (hall op hop).2
    have hcall : op.opcode ≠ .callPure := by
      intro heq
      rw [heq] at hfold
      cases hfold
    rw [knownResult?, if_neg hcall, hfold, hsimplify] at hknown
    exact Option.map_eq_none_iff.mp hknown
  · have hknown := (hall op hop).2
    rwa [knownResult?, if_pos hcall, if_pos hpure] at hknown
  · refine List.pairwise_append.mpr ⟨h.forgetful, ?_, fun e he op hop v c hcode hargs w hw hid => ?_⟩
    · cases last with
      | none => exact .nil
      | some op => exact List.pairwise_singleton ..
    · have hend := hends op (by simpa using hop) w hw
      rw [Forwarding.get?, hid] at hend
      exact h.replaced e he v c hcode hargs hend

/-- The operation that ends the trace mentions no variable that is replaced. -/
theorem get?_of_isFinal {t : Forwarding} (ht : t.Grounded) (hop : op.isFinal = true)
    (hexits : op.CarriesExits) : ∀ w ∈ (t.apply op).uses, t.get? w = none := by
  intro w hw
  have hnil : op.failVars = [] := by
    by_contra hne
    unfold Operation.isFinal at hop
    rcases hexits hne with hcode | ⟨hguard, -⟩
    · rw [hcode] at hop
      cases hop
    · unfold Operation.isGuard at hguard
      revert hop hguard
      cases op.opcode <;> decide
  rcases mem_uses_iff.mp hw with harg | hslot
  · exact ht.get?_of_mem_apply harg
  · rw [← mem_failVars_iff, Forwarding.failVars_apply_eq_nil hnil] at hslot
    cases hslot

end Output

end HotLoop
