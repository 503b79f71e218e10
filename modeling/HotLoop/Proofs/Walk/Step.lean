import HotLoop.Proofs.Computation
import HotLoop.Proofs.Walk.Fate
import HotLoop.Proofs.Walk.Records

/-!
# One step of a walk

What a pass has done when it has taken an operation: nothing but a note of what the trace relies on
when the operation is dropped, one more replacement when its result is known, and one more
operation in the output when it survives. A step that gives the trace up has met a guard that
always fails.
-/

namespace HotLoop

/-- A stop that blames the code of a trace. A pass never stops in this way. -/
def Rejection.Inconsistent (e : Rejection) : Prop :=
  ∃ what error, e = .fault (.inconsistent what error)

theorem Rejection.not_inconsistent_invalid (why : InvalidLoop) :
    ¬ Rejection.Inconsistent (.invalid why) := by
  simp [Inconsistent]

namespace Pass

variable {s : PassSettings} {p p' : Pass}

def SameButGuards (p p' : Pass) : Prop :=
  ∃ guards counter, p' = { p with shared := { p.shared with guards, counter } }

theorem SameButGuards.refl (p : Pass) : SameButGuards p p :=
  ⟨p.shared.guards, p.shared.counter, rfl⟩

theorem SameButGuards.trans {p q r : Pass} (h : SameButGuards p q) (h' : SameButGuards q r) :
    SameButGuards p r := by
  obtain ⟨_, _, rfl⟩ := h
  obtain ⟨guards, counter, rfl⟩ := h'
  exact ⟨guards, counter, rfl⟩

theorem runFrom_forward (v : Var) (a : Arg) :
    runFrom (forward v a) p = (.ok (), { p with forwarding := p.forwarding.forward v a }) := rfl

theorem fresh_eq_ok {k : Kind} {v : Var} (h : runFrom (fresh k) p = (.ok v, p')) :
    v = ⟨p.shared.values.next, k⟩ ∧
      p' = { p with shared := { p.shared with values := ⟨p.shared.values.next + 1⟩ } } := by
  simp only [fresh, runFrom_bind_eq_ok, runFrom_get, Prod.mk.injEq, Except.ok.injEq] at h
  obtain ⟨q, u, ⟨rfl, rfl⟩, h⟩ := h
  split at h
  · rename_i w values hfresh
    obtain ⟨hw, hnext⟩ := ValueIds.fresh_eq_ok hfresh
    simp only [runFrom_bind_eq_ok, runFrom_set, runFrom_pure, Prod.mk.injEq, Except.ok.injEq] at h
    obtain ⟨_, _, ⟨-, rfl⟩, rfl, rfl⟩ := h
    obtain ⟨n⟩ := values
    cases hnext
    exact ⟨hw, rfl⟩
  · cases h

/--
The guard of a surviving guard: the one that it names, a copy of it if the walk renames, or new.
-/
structure FindsGuard (s : PassSettings) (p p' : Pass) (op : Operation) (g : Guard) : Prop where
  same : SameButGuards p p'
  named : ∀ g', op.guard? = some g' →
    g.opcode = g'.opcode ∧ g.kind = g'.kind ∧ (s.renames = false → g = g')
  own : op.guard? = some g ∨ p.shared.guards.records.length ≤ g.id
  lt : (∀ g', op.guard? = some g' → g'.id < p.shared.guards.records.length) →
    g.id < p'.shared.guards.records.length
  invented : op.guard? = none → GuardKind.ofOpCode s.driver op.opcode = .ok g.kind

theorem guardFor_eq_ok {op : Operation} {g : Guard} (h : runFrom (guardFor s op) p = (.ok g, p')) :
    FindsGuard s p p' op g := by
  simp only [guardFor, runFrom_bind_eq_ok, runFrom_get, Prod.mk.injEq, Except.ok.injEq] at h
  obtain ⟨q, u, ⟨rfl, rfl⟩, h⟩ := h
  split at h
  · rename_i g' hg'
    split at h
    · rename_i hren
      simp only [runFrom_bind_eq_ok, runFrom_set, runFrom_pure, Prod.mk.injEq,
        Except.ok.injEq] at h
      obtain ⟨_, _, ⟨-, rfl⟩, rfl, rfl⟩ := h
      obtain ⟨hle, hlt⟩ := GuardTable.lt_of_make (t := p.shared.guards) rfl
      refine ⟨⟨_, _, rfl⟩, fun g'' hg'' => ?_, .inr hle, fun _ => hlt,
        fun hnone => by rw [hg'] at hnone; cases hnone⟩
      cases hg'.symm.trans hg''
      exact ⟨rfl, rfl, fun hno => by rw [hno] at hren; cases hren⟩
    · simp only [runFrom_pure, Prod.mk.injEq, Except.ok.injEq] at h
      obtain ⟨rfl, rfl⟩ := h
      refine ⟨.refl _, fun g'' hg'' => ?_, .inl hg', fun hlt => hlt g' hg',
        fun hnone => by rw [hg'] at hnone; cases hnone⟩
      cases hg'.symm.trans hg''
      exact ⟨rfl, rfl, fun _ => rfl⟩
  · rename_i hnone
    split at h
    · rename_i hinvent
      obtain ⟨kind, hkind, hmake⟩ := GuardTable.invent_eq_ok hinvent
      simp only [runFrom_bind_eq_ok, runFrom_set, runFrom_pure, Prod.mk.injEq,
        Except.ok.injEq] at h
      obtain ⟨_, _, ⟨-, rfl⟩, rfl, rfl⟩ := h
      obtain ⟨hle, hlt⟩ := GuardTable.lt_of_make hmake
      refine ⟨⟨_, _, rfl⟩, fun g'' hg'' => ?_, .inr hle, fun _ => hlt,
        fun _ => hkind.trans (congrArg (fun m => Except.ok m.1.kind) hmake).symm⟩
      rw [hnone] at hg''
      cases hg''
    · cases h

/--
What a surviving guard becomes: one that leaves for good stays as it is, any other one gets its
descriptor and the variables of the slots that it hands over.
-/
structure Finishes (s : PassSettings) (t : Forwarding) (recorded : List (Option Var))
    (op op' : Operation) : Prop where
  opcode : op'.opcode = op.opcode
  args : op'.args = op.args
  result : op'.result = op.result
  final : ∀ e, op.descr = some (.final e) → op' = op
  descr : (∀ e, op.descr ≠ some (.final e)) → ∃ g, op'.descr = some (.guard g) ∧
    ∀ g', op.guard? = some g' →
      g.opcode = g'.opcode ∧ g.kind = g'.kind ∧ (s.renames = false → g = g')
  slots : (∀ e, op.descr ≠ some (.final e)) →
    op'.failArgs = some (NumberedSlots.ofSlots t recorded).boxes
  invented : op.guard? = none → ∀ g, op'.descr = some (.guard g) →
    GuardKind.ofOpCode s.driver op.opcode = .ok g.kind
  countable : (∀ e, op.descr ≠ some (.final e)) → op.opcode = .guardValue → op'.Countable

/--
The guard that `op` has been finished with is its own or new, and the slots are on file for it.
-/
def Filed (p p' : Pass) (t : Forwarding) (recorded : List (Option Var)) (op e : Operation) : Prop :=
  (∀ g, op.guard? = some g → g.id < p.shared.guards.records.length) →
    ∀ g, e.descr = some (.guard g) →
      (op.guard? = some g ∨ p.shared.guards.records.length ≤ g.id) ∧
        p'.shared.guards.Files g e (NumberedSlots.ofSlots t recorded)

theorem finishGuard_eq_ok {op op' : Operation} {recorded : List (Option Var)}
    (h : runFrom (finishGuard s op recorded) p = (.ok op', p')) :
    SameButGuards p p' ∧ Finishes s p.forwarding recorded op op' ∧
      Filed p p' p.forwarding recorded op op' := by
  unfold finishGuard at h
  split at h
  · rename_i e he
    simp only [runFrom_pure, Prod.mk.injEq, Except.ok.injEq] at h
    obtain ⟨rfl, rfl⟩ := h
    exact ⟨.refl _, ⟨rfl, rfl, rfl, fun _ _ => rfl, fun hno => absurd he (hno e),
      fun hno => absurd he (hno e), fun _ g hg => (by rw [he] at hg; cases hg),
      fun hno => absurd he (hno e)⟩, fun _ g hg => by rw [he] at hg; cases hg⟩
  · rename_i hno
    have hno : ∀ e, op.descr ≠ some (.final e) := by simpa using hno
    simp only [runFrom_bind_eq_ok] at h
    obtain ⟨g, q, hg, q', u, hget, h⟩ := h
    have hfinds := guardFor_eq_ok hg
    simp only [runFrom_get, Prod.mk.injEq, Except.ok.injEq] at hget
    obtain ⟨rfl, rfl⟩ := hget
    have hsame : q.forwarding = p.forwarding := by
      obtain ⟨_, _, rfl⟩ := hfinds.same
      rfl
    simp only [runFrom_set, Prod.mk.injEq] at h
    obtain ⟨_, _, ⟨-, rfl⟩, h⟩ := h
    rw [← hsame]
    have hfinish (op' : Operation) (hop' : op' = { op with
        failArgs := some (NumberedSlots.ofSlots q.forwarding recorded).boxes
        descr := some (.guard g) }) (hcount : op.opcode = .guardValue → op'.Countable) :
        Finishes s q.forwarding recorded op op' := by
      subst hop'
      exact ⟨rfl, rfl, rfl, fun e he => absurd he (hno e), fun _ => ⟨g, rfl, hfinds.named⟩,
        fun _ => rfl, fun hnone g' hg' => by cases hg'; exact hfinds.invented hnone,
        fun _ => hcount⟩
    have hstores (hnamed : ∀ g, op.guard? = some g → g.id < p.shared.guards.records.length) :=
      GuardTable.stores_storeBoxes (n := .ofSlots q.forwarding recorded) (hfinds.lt hnamed)
        { (q.shared.guards.get g).data with
          numbering := (NumberedSlots.ofSlots q.forwarding recorded).numbering
          consts := (NumberedSlots.ofSlots q.forwarding recorded).consts
          count := (NumberedSlots.ofSlots q.forwarding recorded).boxes.length } rfl rfl
        (NumberedSlots.length_ofSlots ..) q.shared.counter op
    split at h
    · rename_i hop
      split at h
      · rename_i hcount
        simp only [runFrom_bind_eq_ok, runFrom_modify, runFrom_pure, Prod.mk.injEq,
          Except.ok.injEq] at h
        obtain ⟨_, _, ⟨-, rfl⟩, rfl, rfl⟩ := h
        refine ⟨hfinds.same.trans ⟨_, _, rfl⟩, hfinish _ rfl fun _ =>
          (GuardTable.exists_countPerValue_iff hop).mp ⟨_, hcount⟩, fun hnamed g' hg' => ?_⟩
        cases hg'
        have hfiles := (hstores hnamed).files_of_countPerValue hcount
        exact ⟨hfinds.own, hfiles.toStores, hfiles.index⟩
      · simp only [runFrom_bind_eq_ok, runFrom_throw, Prod.mk.injEq, reduceCtorEq] at h
        simp at h
    · rename_i hop
      simp only [runFrom_pure, Prod.mk.injEq, Except.ok.injEq] at h
      obtain ⟨rfl, rfl⟩ := h
      refine ⟨hfinds.same.trans ⟨_, _, rfl⟩, hfinish _ rfl fun hyes => absurd hyes hop,
        fun hnamed g' hg' => ?_⟩
      cases hg'
      exact ⟨hfinds.own, (hstores hnamed).files_of_ne hop⟩

theorem learned?_congr {op op' : Operation} (hopcode : op'.opcode = op.opcode)
    (hargs : op'.args = op.args) : op'.learned? = op.learned? := by
  simp only [Operation.learned?, hopcode, hargs]

theorem learned?_eq_some_iff {op : Operation} {v : Var} {a : Arg} : op.learned? = some (v, a) ↔
    op.opcode = .guardValue ∧ ∃ c, op.args = [.var v, .const c] ∧ a = .const c := by
  unfold Operation.learned?
  split
  · rename_i w c hop hargs
    constructor
    · rintro ⟨⟩
      exact ⟨hop, c, hargs, rfl⟩
    · rintro ⟨-, c', hargs', rfl⟩
      cases hargs.symm.trans hargs'
      rfl
  · rename_i hno
    refine iff_of_false (Option.some_ne_none _).symm ?_
    rintro ⟨hop, c, hargs, -⟩
    exact hno v c hop hargs

/-- The replacements once a guard that survives has taught its value. -/
def learn (t : Forwarding) (op : Operation) : Forwarding :=
  match op.learned? with
  | some (v, c) => t.forward v c
  | none => t

/-- Nothing is learned but that the variable which a guard compares is a constant. -/
theorem learn_cases (t : Forwarding) (op : Operation) : learn t op = t ∨
    ∃ v c, op.opcode = .guardValue ∧ op.args = [.var v, .const c] ∧
      learn t op = t.forward v (.const c) := by
  unfold learn
  split
  · rename_i v a hlearned
    obtain ⟨hop, c, hargs, rfl⟩ := learned?_eq_some_iff.mp hlearned
    exact .inr ⟨v, c, hop, hargs, rfl⟩
  · exact .inl rfl

/-- The operation `op` has been kept as `e`, with `t` in force when its slots were resolved. -/
structure Keeps (s : PassSettings) (p p' : Pass) (op : Operation) (recorded : List (Option Var))
    (t : Forwarding) (e : Operation) : Prop where
  out : p'.out = p.out ++ [e]
  forwarding : p'.forwarding = learn t op
  guarded : p'.guarded = p.guarded
  entries : p'.shared.entries = p.shared.entries
  renamed : (s.renames = true ∧ ∃ r v, op.result = some r ∧ e.result = some v ∧
      v.id = p.shared.values.next ∧ t = p.forwarding.forward r (.var v) ∧
      p'.shared.values.next = p.shared.values.next + 1) ∨
    ((s.renames = true → op.result = none) ∧ e.result = op.result ∧ t = p.forwarding ∧
      p'.shared.values = p.shared.values)
  finishes : op.isGuard = true → Finishes s t recorded { op with result := e.result } e
  filed : op.isGuard = true → Filed p p' t recorded op e
  same : op.isGuard = false → e = { op with result := e.result }
  kind : e.result.map (·.kind) = op.result.map (·.kind)

theorem Keeps.opcode {op e : Operation} {recorded : List (Option Var)} {t : Forwarding}
    (h : Keeps s p p' op recorded t e) : e.opcode = op.opcode := by
  cases hguard : op.isGuard with
  | true => exact (h.finishes hguard).opcode
  | false => rw [h.same hguard]

theorem Keeps.args {op e : Operation} {recorded : List (Option Var)} {t : Forwarding}
    (h : Keeps s p p' op recorded t e) : e.args = op.args := by
  cases hguard : op.isGuard with
  | true => exact (h.finishes hguard).args
  | false => rw [h.same hguard]

/-- The end of `keep`: the operation goes to the output, and what it teaches is learned. -/
theorem runFrom_append (e : Operation) : runFrom (do
      modify fun p => { p with out := p.out ++ [e] }
      match e.learned? with
        | some (v, c) => forward v c
        | _ => pure ()) p =
    (.ok (), { p with out := p.out ++ [e], forwarding := learn p.forwarding e }) := by
  simp only [runFrom_bind, runFrom_modify, learn]
  cases e.learned? with
  | none => rfl
  | some learned => rfl

private theorem finish_eq_ok {q : Pass} {o : Operation} {recorded : List (Option Var)}
    (h : runFrom (if o.isGuard then do
        let e ← finishGuard s o recorded
        modify fun p => { p with out := p.out ++ [e] }
        match e.learned? with
          | some (v, c) => forward v c
          | _ => pure ()
      else do
        let e ← pure o
        modify fun p => { p with out := p.out ++ [e] }
        match e.learned? with
          | some (v, c) => forward v c
          | _ => pure ()) q = (.ok (), p')) :
    ∃ e q', SameButGuards q q' ∧
      p' = { q' with out := q.out ++ [e], forwarding := learn q.forwarding e } ∧
      (o.isGuard = true → Finishes s q.forwarding recorded o e ∧
        Filed q q' q.forwarding recorded o e) ∧ (o.isGuard = false → e = o) := by
  split at h
  · rename_i hguard
    rw [runFrom_bind_eq_ok] at h
    obtain ⟨e, q', hfinish, h⟩ := h
    obtain ⟨hsame, hguard'⟩ := finishGuard_eq_ok hfinish
    have happend := (Prod.mk.inj ((runFrom_append e).symm.trans h)).2.symm
    refine ⟨e, q', hsame, ?_, fun _ => hguard', fun hno => ?_⟩
    · obtain ⟨_, _, rfl⟩ := hsame
      exact happend
    · rw [hno] at hguard
      cases hguard
  · rename_i hguard
    rw [runFrom_bind_eq_ok] at h
    obtain ⟨e, q', hpure, h⟩ := h
    simp only [runFrom_pure, Prod.mk.injEq, Except.ok.injEq] at hpure
    obtain ⟨rfl, rfl⟩ := hpure
    have happend := (Prod.mk.inj ((runFrom_append o).symm.trans h)).2.symm
    exact ⟨o, q, .refl q, happend, fun hyes => absurd hyes hguard, fun _ => rfl⟩

theorem keep_eq_ok {op : Operation} {recorded : List (Option Var)}
    (h : runFrom (keep s op recorded) p = (.ok (), p')) :
    ∃ t e, Keeps s p p' op recorded t e := by
  simp only [keep] at h
  split at h
  · rename_i r hren hr
    simp only [runFrom_bind_eq_ok] at h
    obtain ⟨v, u, hfresh, _, w, hforward, o, q, hpure, h⟩ := h
    obtain ⟨rfl, rfl⟩ := fresh_eq_ok hfresh
    simp only [runFrom_forward, Prod.mk.injEq] at hforward
    simp only [runFrom_pure, Prod.mk.injEq, Except.ok.injEq] at hpure
    obtain ⟨-, rfl⟩ := hforward
    obtain ⟨rfl, rfl⟩ := hpure
    obtain ⟨e, q', hsame, rfl, hguard, hother⟩ := finish_eq_ok h
    have hresult : e.result = some ⟨p.shared.values.next, r.kind⟩ := by
      cases hg : op.isGuard with
      | true => exact (hguard hg).1.result
      | false => rw [hother hg]
    have hcode : e.opcode = op.opcode ∧ e.args = op.args := by
      cases hg : op.isGuard with
      | true => exact ⟨(hguard hg).1.opcode, (hguard hg).1.args⟩
      | false => rw [hother hg]; exact ⟨rfl, rfl⟩
    obtain ⟨_, _, rfl⟩ := hsame
    refine ⟨p.forwarding.forward r (.var ⟨p.shared.values.next, r.kind⟩), e, rfl, ?_, rfl, rfl,
      .inl ⟨hren, r, _, hr, hresult, rfl, rfl, rfl⟩, ?_, fun hyes => (hguard hyes).2, ?_, ?_⟩
    · simp only [learn, learned?_congr hcode.1 hcode.2]
    · rw [hresult]
      exact fun hyes => (hguard hyes).1
    · rw [hresult]
      exact hother
    · rw [hresult, hr]
      rfl
  · rename_i hno
    rw [runFrom_bind_eq_ok] at h
    obtain ⟨o, q, hpure, h⟩ := h
    simp only [runFrom_pure, Prod.mk.injEq, Except.ok.injEq] at hpure
    obtain ⟨rfl, rfl⟩ := hpure
    obtain ⟨e, q', hsame, rfl, hguard, hother⟩ := finish_eq_ok h
    have hcode : e.opcode = op.opcode ∧ e.args = op.args ∧ e.result = op.result := by
      cases hg : op.isGuard with
      | true => exact ⟨(hguard hg).1.opcode, (hguard hg).1.args, (hguard hg).1.result⟩
      | false => rw [hother hg]; exact ⟨rfl, rfl, rfl⟩
    have hnone : s.renames = true → op.result = none := by
      intro hren
      cases hr : op.result with
      | none => rfl
      | some r => exact (hno r hren hr).elim
    obtain ⟨_, _, rfl⟩ := hsame
    refine ⟨p.forwarding, e, rfl, ?_, rfl, rfl, .inr ⟨hnone, hcode.2.2, rfl, rfl⟩, ?_,
      fun hyes => (hguard hyes).2, ?_, congrArg _ hcode.2.2⟩
    · simp only [learn, learned?_congr hcode.1 hcode.2.1]
    · rw [hcode.2.2]
      exact fun hyes => (hguard hyes).1
    · rw [hcode.2.2]
      exact hother

/-- What has become of an operation when the pass has taken it from `p` to `p'`. -/
inductive Stepped (s : PassSettings) (p p' : Pass) (recorded : Operation) : Prop where
  | drop (hfate : fate s p.guarded (p.forwarding.apply recorded) = .ok .drop)
      (heq : ∃ deps, p' = { p with deps })
  | replace (r : Var) (a : Arg)
      (hfate : fate s p.guarded (p.forwarding.apply recorded) = .ok (.replace r a))
      (heq : ∃ deps, p' = { p with deps, forwarding := p.forwarding.forward r a })
  | keep (op e : Operation) (t : Forwarding)
      (hfate : fate s p.guarded (p.forwarding.apply recorded) = .ok (.keep op))
      (hkeeps : ∃ deps, Keeps s { p with deps, guarded := p.guarded || recorded.guardsFields } p' op
        recorded.failSlots t e)

def dispatch (s : PassSettings) (p : Pass) (recorded : Operation) : PassM Pass Unit :=
  match fate s p.guarded (p.forwarding.apply recorded) with
  | .error e => throw e
  | .ok .drop => pure ()
  | .ok (.replace r a) => forward r a
  | .ok (.keep op') =>
    if (p.forwarding.apply recorded).guardsFields then do
      modify fun p => { p with guarded := true }
      keep s op' recorded.failSlots
    else keep s op' recorded.failSlots

theorem runFrom_step (recorded : Operation) :
    ∃ deps : FieldSet, (∀ f, f ∈ deps ↔ recorded.dependency? = some f ∨ f ∈ p.deps) ∧
      runFrom (step s recorded) p = runFrom (dispatch s p recorded) { p with deps } := by
  have hsame : recorded.dependency? = (p.forwarding.apply recorded).dependency? := rfl
  simp only [step, hsame]
  cases hdep : (p.forwarding.apply recorded).dependency? with
  | none =>
    refine ⟨p.deps, by simp, ?_⟩
    rw [runFrom_bind]
    simp only [runFrom_get, hdep]
    rfl
  | some field =>
    refine ⟨p.deps.insert field, fun f => ?_, ?_⟩
    · rw [FieldSet.mem_insert, Option.some.injEq, eq_comm]
    · rw [runFrom_bind]
      simp only [runFrom_get, hdep, runFrom_bind, runFrom_modify]
      rfl

theorem step_eq_ok {recorded : Operation}
    (h : runFrom (step s recorded) p = (.ok (), p')) : Stepped s p p' recorded := by
  obtain ⟨deps, -, hstep⟩ := runFrom_step (s := s) (p := p) recorded
  rw [hstep, dispatch] at h
  split at h
  · cases h
  · rename_i hfate
    cases h
    exact .drop hfate ⟨deps, rfl⟩
  · rename_i r a hfate
    cases h
    exact .replace r a hfate ⟨deps, rfl⟩
  · rename_i op' hfate
    split at h
    · rename_i hfields
      simp only [runFrom_bind_eq_ok, runFrom_modify, Prod.mk.injEq] at h
      obtain ⟨_, _, ⟨-, rfl⟩, h⟩ := h
      obtain ⟨t, e, hkeeps⟩ := keep_eq_ok h
      refine .keep op' e t hfate ⟨deps, ?_⟩
      rwa [show (p.guarded || recorded.guardsFields) = true by
        rw [show recorded.guardsFields = true from hfields, Bool.or_true]]
    · rename_i hfields
      obtain ⟨t, e, hkeeps⟩ := keep_eq_ok h
      refine .keep op' e t hfate ⟨deps, ?_⟩
      rwa [show (p.guarded || recorded.guardsFields) = p.guarded by
        rw [show recorded.guardsFields = false from eq_false_of_ne_true hfields, Bool.or_false]]

section Goes

variable {R : Pass → Pass → Prop} {P : Rejection → Prop} [Std.Refl R] [IsTrans Pass R]

/--
An operation is kept in the same way as its result is renamed and its guard finished, where nothing
but the parts that the pass shares with the context matters.
-/
theorem keep_goes {op : Operation} {recorded : List (Option Var)}
    (hshared : ∀ q q' : Pass, q'.shared = q.shared → R q q')
    (hfresh : s.renames = true → ∀ r, op.result = some r → Goes R P (fresh r.kind) p)
    (hfinish : op.isGuard = true → ∀ result q,
      Goes R P (finishGuard s { op with result } recorded) q) :
    Goes R P (keep s op recorded) p := by
  have hrest {k : Operation → PassM Pass Unit} (hk : ∀ e q, Goes R P (k e) q) (result : Option Var)
      (q : Pass) : Goes R P (if op.isGuard then finishGuard s { op with result } recorded >>= k
        else k { op with result }) q := by
    split
    · rename_i hyes
      exact .bind (hfinish hyes result q) fun e r _ => hk e r
    · exact hk _ q
  simp only [keep, pure_bind]
  split
  · rename_i r hren hr
    refine .bind (hfresh hren r hr) fun v q _ => .bind (.modify (hshared _ _ rfl)) fun _ r _ => ?_
    refine hrest (fun e t => ?_) (some v) r
    refine .bind (.modify (hshared _ _ rfl)) fun _ u _ => ?_
    split
    · exact .modify (hshared _ _ rfl)
    · exact .pure _
  · refine hrest (fun e t => ?_) op.result p
    refine .bind (.modify (hshared _ _ rfl)) fun _ u _ => ?_
    split
    · exact .modify (hshared _ _ rfl)
    · exact .pure _

private theorem kept_of_fate {guarded : Bool} {recorded op' : Operation}
    (h : fate s guarded recorded = .ok (.keep op')) :
    (∀ a ∈ op'.args, a ∈ recorded.args) ∧ (op'.isGuard = true → ∀ g, op'.guard? = some g →
      recorded.isGuard = true ∧ recorded.guard? = some g) := by
  rcases keep_cases h with ⟨rfl, -, -⟩ | ⟨-, rfl⟩
  · exact ⟨fun _ => id, fun hguard g hg => ⟨hguard, hg⟩⟩
  · exact ⟨nofun, fun _ => nofun⟩

theorem step_goes {op : Operation} (hshared : ∀ q q' : Pass, q'.shared = q.shared → R q q')
    (hfresh : s.renames = true → ∀ k q, q.shared = p.shared → Goes R P (fresh k) q)
    (hfinish : ∀ o : Operation, o.isGuard = true →
      (∀ a ∈ o.args, a ∈ (p.forwarding.apply op).args) →
      (∀ g, o.guard? = some g → op.isGuard = true ∧ op.guard? = some g) →
        ∀ recorded q, Goes R P (finishGuard s o recorded) q)
    (hfate : ∀ e, fate s p.guarded (p.forwarding.apply op) = .error e → ¬ P e) :
    Goes R P (step s op) p := by
  obtain ⟨deps, -, hstep⟩ := runFrom_step (s := s) (p := p) op
  have hnoted : R p { p with deps } := hshared _ _ rfl
  suffices h : Goes R P (dispatch s p op) { p with deps } by
    unfold Goes
    rw [hstep]
    exact ⟨IsTrans.trans _ _ _ hnoted h.1, h.2⟩
  rw [dispatch]
  split
  · rename_i e he
    exact .throw (hfate e he)
  · exact .pure _
  · exact .modify (hshared _ _ rfl)
  · rename_i op' hkeep
    obtain ⟨hargs, hguard⟩ := kept_of_fate hkeep
    have hfinish' (hyes : op'.isGuard = true) (result : Option Var) (q : Pass) :
        Goes R P (finishGuard s { op' with result } op.failSlots) q :=
      hfinish { op' with result } hyes hargs (hguard hyes) _ q
    split
    · exact .bind_of_eq (runFrom_modify _) (hshared _ _ rfl)
        (keep_goes hshared (fun hren r _ => hfresh hren r.kind _ rfl) hfinish')
    · exact keep_goes hshared (fun hren r _ => hfresh hren r.kind _ rfl) hfinish'

theorem run_goes_of_step {ops : List Operation}
    (hstep : ∀ op ∈ ops, ∀ q, Goes R P (step s op) q) : Goes R P (run s ops) p := by
  induction ops generalizing p with
  | nil => exact .pure _
  | cons op ops ih =>
    rw [run]
    split
    · exact .get_bind (.pure _)
    · exact .bind (hstep op (List.mem_cons_self ..) p) fun _ _ _ =>
        ih fun o ho => hstep o (List.mem_cons_of_mem _ ho)

end Goes

section Sharing

/-- `p'` is `p` with other parts that a pass shares with the context. -/
def SameButShared (p p' : Pass) : Prop := ∃ shared, p' = { p with shared }

instance : Std.Refl SameButShared := ⟨fun p => ⟨p.shared, rfl⟩⟩

instance : IsTrans Pass SameButShared :=
  ⟨fun _ _ _ ⟨_, h⟩ ⟨shared, h'⟩ => ⟨shared, by rw [h', h]⟩⟩

theorem SameButShared.forwarding_eq (h : SameButShared p p') : p'.forwarding = p.forwarding := by
  obtain ⟨shared, rfl⟩ := h
  rfl

theorem SameButShared.deps_eq (h : SameButShared p p') : p'.deps = p.deps := by
  obtain ⟨shared, rfl⟩ := h
  rfl

/-- The computation changes nothing of the pass itself. -/
abbrev OnlyShares {α : Type} (x : PassM Pass α) (p : Pass) : Prop :=
  Goes SameButShared (fun _ => False) x p

theorem fresh_onlyShares (k : Kind) : OnlyShares (fresh k) p := by
  unfold fresh
  refine .get_bind ?_
  split
  · exact .bind (.set ⟨_, rfl⟩) fun _ _ _ => .pure _
  · exact .throw id

theorem guardFor_onlyShares (op : Operation) : OnlyShares (guardFor s op) p := by
  unfold guardFor
  refine .get_bind ?_
  dsimp only
  split
  · split
    · exact .bind (.set ⟨_, rfl⟩) fun _ _ _ => .pure _
    · exact .pure _
  · split
    · exact .bind (.set ⟨_, rfl⟩) fun _ _ _ => .pure _
    · exact .throw id

theorem finishGuard_onlyShares (op : Operation) (recorded : List (Option Var)) :
    OnlyShares (finishGuard s op recorded) p := by
  unfold finishGuard
  split
  · exact .pure _
  · refine .bind (guardFor_onlyShares op) fun g q _ =>
      .get_bind (.bind (.set ⟨_, rfl⟩) fun _ r _ => ?_)
    split
    · split
      · exact .bind (.modify ⟨_, rfl⟩) fun _ _ _ => .pure _
      · exact .throw_bind id
    · exact .pure _

end Sharing

section Harmless

/-- All entry points of `p` are in `p'` as they were, and no number is fresh again. -/
structure Extends (p p' : Pass) : Prop where
  homes : p.shared.entries.homes <+: p'.shared.entries.homes
  next_le : p.shared.values.next ≤ p'.shared.values.next

instance : Std.Refl Extends := ⟨fun _ => ⟨List.prefix_rfl, Nat.le_refl _⟩⟩

instance : IsTrans Pass Extends :=
  ⟨fun _ _ _ h h' => ⟨h.homes.trans h'.homes, Nat.le_trans h.next_le h'.next_le⟩⟩

private theorem extends_of_shared {q q' : Pass} (h : q'.shared = q.shared) : Extends q q' :=
  ⟨⟨[], by rw [h, List.append_nil]⟩, Nat.le_of_eq (by rw [h])⟩

/-- Entry points are left alone, and nothing is wrong with the trace. -/
private abbrev Harmless {α : Type} (x : PassM Pass α) (p : Pass) : Prop :=
  Goes Extends (fun e => (∃ why, e = .invalid why) ∨ e.Inconsistent) x p

private theorem invent_eq_error {t : GuardTable} {driver : Nat} {op : OpCode} {f : Fault}
    (h : t.invent driver op = .error f) : f = .noFailDescr op := by
  unfold GuardTable.invent GuardKind.ofOpCode at h
  split at h
  · cases h
  · cases h
  · cases h
  · cases h
  · split at h
    · cases h
    · cases h
      rfl

theorem countPerValue_eq_error {t : GuardTable} {g : Guard} {op : Operation} {f : Fault}
    (h : t.countPerValue g op = .error f) : f = .notComparing op.opcode ∧ op.opcode ≠ .guardValue ∨
      f = .guardOnVoid ∧ ∃ v, .var v ∈ op.args ∧ v.kind = .void := by
  have hspec := t.countPerValue_spec g op
  rw [h] at hspec
  cases hspec with
  | other hop => exact .inl ⟨rfl, hop⟩
  | void _ hv _ hvoid => exact .inr ⟨rfl, _, List.mem_of_mem_head? hv, hvoid⟩

private theorem guardFor_harmless {op : Operation} : Harmless (guardFor s op) p := by
  unfold guardFor
  refine .get_bind ?_
  dsimp only
  split
  · split
    · exact .bind (.set ⟨List.prefix_rfl, Nat.le_refl _⟩) fun _ _ _ => .pure _
    · exact .pure _
  · split
    · exact .bind (.set ⟨List.prefix_rfl, Nat.le_refl _⟩) fun _ _ _ => .pure _
    · rename_i hinvent
      rw [invent_eq_error hinvent]
      exact .throw (by simp [Rejection.Inconsistent])

private theorem finishGuard_harmless {op : Operation} {recorded : List (Option Var)} :
    Harmless (finishGuard s op recorded) p := by
  unfold finishGuard
  split
  · exact .pure _
  · refine .bind guardFor_harmless fun g q _ =>
      .get_bind (.bind (.set ⟨List.prefix_rfl, Nat.le_refl _⟩) fun _ r _ => ?_)
    split
    · split
      · exact .bind (.modify ⟨List.prefix_rfl, Nat.le_refl _⟩) fun _ _ _ => .pure _
      · rename_i hcount
        refine .bind (.throw ?_) fun _ _ _ => .pure _
        rcases countPerValue_eq_error hcount with ⟨rfl, -⟩ | ⟨rfl, -⟩ <;>
          simp [Rejection.Inconsistent]
    · exact .pure _

private theorem fresh_harmless {k : Kind} : Harmless (fresh k) p := by
  unfold fresh
  refine .get_bind ?_
  split
  · rename_i hfresh
    refine .bind (.set ⟨List.prefix_rfl, ?_⟩) fun _ _ _ => .pure _
    dsimp only
    rw [(ValueIds.fresh_eq_ok hfresh).2]
    exact Nat.le_succ _
  · rename_i e hfresh
    unfold ValueIds.fresh at hfresh
    split at hfresh
    · cases hfresh
    · cases hfresh
      exact .throw (by simp [Rejection.Inconsistent])

private theorem keep_harmless {op : Operation} {recorded : List (Option Var)} :
    Harmless (keep s op recorded) p :=
  keep_goes (fun _ _ => extends_of_shared) (fun _ _ _ => fresh_harmless)
    fun _ _ _ => finishGuard_harmless

theorem fresh_goes (k : Kind) : Goes Extends Rejection.Inconsistent (fresh k) p :=
  fresh_harmless.mono fun _ => .inr

end Harmless

/-- A step gives the trace up for nothing but a guard that always fails. -/
theorem step_eq_invalid {recorded : Operation} {why : InvalidLoop}
    (h : runFrom (step s recorded) p = (.error (.invalid why), p')) :
    fate s p.guarded (p.forwarding.apply recorded) = .error (.invalid why) := by
  obtain ⟨deps, -, hstep⟩ := runFrom_step (s := s) (p := p) recorded
  rw [hstep, dispatch] at h
  split at h
  · rename_i e hfate
    cases h
    exact hfate
  · cases h
  · cases h
  · split at h
    · rcases runFrom_bind_eq_error.mp h with h | ⟨_, q, -, h⟩
      · cases h
      · exact absurd (.inl ⟨why, rfl⟩) (keep_harmless.2 _ (congrArg Prod.fst h))
    · exact absurd (.inl ⟨why, rfl⟩) (keep_harmless.2 _ (congrArg Prod.fst h))

/-- A walk takes an operation that does not end the trace, and goes on. -/
theorem run_cons_eq_ok_iff {op : Operation} {ops : List Operation} {last : Option Operation}
    (hop : op.isFinal = false) : runFrom (run s (op :: ops)) p = (.ok last, p') ↔
      ∃ q, runFrom (step s op) p = (.ok (), q) ∧ runFrom (run s ops) q = (.ok last, p') := by
  rw [run, if_neg (by rw [hop]; exact Bool.false_ne_true), runFrom_bind_eq_ok]
  exact ⟨fun ⟨_, q, hstep, hrest⟩ => ⟨q, hstep, hrest⟩,
    fun ⟨q, hstep, hrest⟩ => ⟨(), q, hstep, hrest⟩⟩

theorem run_cons_eq_ok {op : Operation} {ops : List Operation} {last : Option Operation}
    (hop : op.isFinal = false) (h : runFrom (run s (op :: ops)) p = (.ok last, p')) :
    ∃ q, Stepped s p q op ∧ runFrom (run s ops) q = (.ok last, p') := by
  obtain ⟨q, hstep, hrest⟩ := (run_cons_eq_ok_iff hop).mp h
  exact ⟨q, step_eq_ok hstep, hrest⟩

/-- The operation that ends the trace is handed back. -/
theorem run_cons_eq_ok_of_isFinal {op : Operation} {ops : List Operation} {last : Option Operation}
    (hop : op.isFinal = true) (h : runFrom (run s (op :: ops)) p = (.ok last, p')) :
    last = some (p.forwarding.apply op) ∧ p' = p := by
  rw [run, if_pos hop] at h
  simp only [runFrom_bind, runFrom_get, runFrom_pure, Prod.mk.injEq, Except.ok.injEq] at h
  exact ⟨h.1.symm, h.2.symm⟩

/-- A walk over operations with another behind them that ends the trace. -/
theorem run_append_eq_ok {op : Operation} {ops : List Operation} {last : Option Operation}
    (hops : ∀ o ∈ ops, o.isFinal = false) (hop : op.isFinal = true)
    (h : runFrom (run s (ops ++ [op])) p = (.ok last, p')) :
    runFrom (run s ops) p = (.ok none, p') ∧ last = some (p'.forwarding.apply op) := by
  induction ops generalizing p with
  | nil =>
    obtain ⟨rfl, rfl⟩ := run_cons_eq_ok_of_isFinal hop h
    exact ⟨rfl, rfl⟩
  | cons o ops ih =>
    have ho := hops o (List.mem_cons_self ..)
    obtain ⟨q, hstep, hrest⟩ := (run_cons_eq_ok_iff ho).mp h
    obtain ⟨hrun, hlast⟩ := ih (fun o ho => hops o (List.mem_cons_of_mem _ ho)) hrest
    exact ⟨(run_cons_eq_ok_iff ho).mpr ⟨q, hstep, hrun⟩, hlast⟩

theorem Stepped.get?_ne_none {op : Operation} (h : Stepped s p p' op) {v : Var}
    (hv : p.forwarding.get? v ≠ none) : p'.forwarding.get? v ≠ none := by
  cases h with
  | drop _ heq =>
    obtain ⟨deps, rfl⟩ := heq
    exact hv
  | replace r a _ heq =>
    obtain ⟨deps, rfl⟩ := heq
    exact Forwarding.get?_forward_ne_none hv
  | keep op' e t _ hkeeps =>
    obtain ⟨deps, hkeeps⟩ := hkeeps
    have ht : t.get? v ≠ none := by
      rcases hkeeps.renamed with ⟨-, r, w, -, -, -, rfl, -⟩ | ⟨-, -, rfl, -⟩
      · exact Forwarding.get?_forward_ne_none hv
      · exact hv
    rw [hkeeps.forwarding, learn]
    split
    · exact Forwarding.get?_forward_ne_none ht
    · exact ht

theorem Stepped.next_le {op : Operation} (h : Stepped s p p' op) :
    p.shared.values.next ≤ p'.shared.values.next := by
  cases h with
  | drop _ heq =>
    obtain ⟨deps, rfl⟩ := heq
    exact Nat.le_refl _
  | replace _ _ _ heq =>
    obtain ⟨deps, rfl⟩ := heq
    exact Nat.le_refl _
  | keep op' e t _ hkeeps =>
    obtain ⟨deps, hkeeps⟩ := hkeeps
    rcases hkeeps.renamed with ⟨-, r, v, -, -, -, -, hnext⟩ | ⟨-, -, -, hvalues⟩
    · rw [hnext]
      exact Nat.le_succ _
    · exact Nat.le_of_eq (congrArg ValueIds.next hvalues).symm

theorem next_le_of_run {ops : List Operation} {last : Option Operation}
    (hrun : runFrom (run s ops) p = (.ok last, p')) (hops : ∀ op ∈ ops, op.isFinal = false) :
    p.shared.values.next ≤ p'.shared.values.next := by
  induction ops generalizing p with
  | nil =>
    simp only [run, runFrom_pure, Prod.mk.injEq] at hrun
    exact Nat.le_of_eq (congrArg (·.shared.values.next) hrun.2)
  | cons op ops ih =>
    have hop := hops op (List.mem_cons_self ..)
    obtain ⟨q, hstepped, hrest⟩ := run_cons_eq_ok hop hrun
    exact Nat.le_trans hstepped.next_le
      (ih hrest fun o ho => hops o (List.mem_cons_of_mem _ ho))

/-- A walk only adds to the entry points, however it ends. -/
theorem run_goes (ops : List Operation) :
    Goes Extends Rejection.Inconsistent (run s ops) p := by
  refine run_goes_of_step fun op _ q => step_goes (fun _ _ => extends_of_shared)
    (fun _ k _ _ => fresh_goes k)
    (fun _ _ _ _ _ _ => finishGuard_harmless.mono fun _ => .inr) fun e he => ?_
  unfold fate at he
  split at he
  · split at he
    · cases he
    · cases he
    · cases he
      simp [Rejection.Inconsistent]
  · cases he
  · cases he
  · split at he
    · split at he
      · cases he
      · cases he
        exact Rejection.not_inconsistent_invalid _
      · cases he
    · split at he <;> cases he

end Pass

end HotLoop
