import HotLoop.Proofs.Execution.Scope
import HotLoop.Proofs.Walk.Peeled
import HotLoop.Proofs.Walk.Request

/-!
# Walks keep kinds

A walk replaces values by values of the same kind, as long as copies have the kind of what they
copy, guards compare values of one kind, and what can be folded has integers for results.
-/

namespace HotLoop

variable {κ κ' : Nat → Kind} {n n' : Nat}

/-- The number of the variable is below `n`, and `κ` gives it the kind of the variable. -/
def Var.Typed (κ : Nat → Kind) (n : Nat) (v : Var) : Prop := v.id < n ∧ v.kind = κ v.id

def Arg.Typed (κ : Nat → Kind) (n : Nat) (a : Arg) : Prop := ∀ v, a = .var v → v.Typed κ n

def SameKinds (n : Nat) (κ κ' : Nat → Kind) : Prop := ∀ i < n, κ' i = κ i

theorem SameKinds.refl (n : Nat) (κ : Nat → Kind) : SameKinds n κ κ := fun _ _ => rfl

theorem SameKinds.trans {κ'' : Nat → Kind} (h : SameKinds n κ κ') (h' : SameKinds n' κ' κ'')
    (hle : n ≤ n') : SameKinds n κ κ'' :=
  fun i hi => (h' i (Nat.lt_of_lt_of_le hi hle)).trans (h i hi)

theorem SameKinds.extend (n : Nat) (κ : Nat → Kind) (k : Kind) :
    SameKinds n κ fun i => if i = n then k else κ i :=
  fun _ hi => if_neg (Nat.ne_of_lt hi)

theorem Var.Typed.mono {v : Var} (h : v.Typed κ n) (hκ : SameKinds n κ κ') (hle : n ≤ n') :
    v.Typed κ' n' :=
  ⟨Nat.lt_of_lt_of_le h.1 hle, h.2.trans (hκ v.id h.1).symm⟩

theorem Var.typed_extend (κ : Nat → Kind) (n : Nat) (k : Kind) :
    Var.Typed (fun i => if i = n then k else κ i) (n + 1) ⟨n, k⟩ :=
  ⟨Nat.lt_succ_self n, (if_pos rfl).symm⟩

theorem Arg.Typed.mono {a : Arg} (h : a.Typed κ n) (hκ : SameKinds n κ κ') (hle : n ≤ n') :
    a.Typed κ' n' :=
  fun v hv => (h v hv).mono hκ hle

theorem Arg.typed_var {v : Var} (h : v.Typed κ n) : (Arg.var v).Typed κ n := by
  rintro _ ⟨⟩
  exact h

theorem Arg.typed_const (c : Value) : (Arg.const c).Typed κ n := by
  rintro _ ⟨⟩

structure Forwarding.Typed (t : Forwarding) (κ : Nat → Kind) (n : Nat) : Prop where
  lt : ∀ v a, t.get? v = some a → v.id < n
  typed : ∀ v a, t.get? v = some a → a.Typed κ n
  kind : ∀ v a, t.get? v = some a → a.kind = κ v.id

namespace Forwarding.Typed

variable {t : Forwarding}

theorem empty (κ : Nat → Kind) (n : Nat) : Forwarding.empty.Typed κ n where
  lt _ _ hget := by cases hget
  typed _ _ hget := by cases hget
  kind _ _ hget := by cases hget

theorem mono (h : t.Typed κ n) (hκ : SameKinds n κ κ') (hle : n ≤ n') : t.Typed κ' n' where
  lt v a hget := Nat.lt_of_lt_of_le (h.lt v a hget) hle
  typed v a hget := (h.typed v a hget).mono hκ hle
  kind v a hget := (h.kind v a hget).trans (hκ v.id (h.lt v a hget)).symm

theorem forward (h : t.Typed κ n) {v : Var} {a : Arg} (hv : v.Typed κ n) (ha : a.Typed κ n)
    (hkind : a.kind = v.kind) : (t.forward v a).Typed κ n := by
  have hcases {w : Var} {b : Arg} (hget : (t.forward v a).get? w = some b) :
      (w.id = v.id ∧ b = a) ∨ t.get? w = some b := by
    rw [get?_forward] at hget
    split at hget
    · rename_i hw
      cases hget
      exact .inl ⟨hw.2, rfl⟩
    · exact .inr hget
  refine ⟨fun w b hget => ?_, fun w b hget => ?_, fun w b hget => ?_⟩
  · rcases hcases hget with ⟨hid, -⟩ | hold
    · exact hid ▸ hv.1
    · exact h.lt w b hold
  · rcases hcases hget with ⟨-, rfl⟩ | hold
    · exact ha
    · exact h.typed w b hold
  · rcases hcases hget with ⟨hid, rfl⟩ | hold
    · rw [hkind, hv.2, hid]
    · exact h.kind w b hold

private theorem follow (h : t.Typed κ n) (m : Nat) {a : Arg} (ha : a.Typed κ n) :
    (t.follow m a).Typed κ n ∧ (t.follow m a).kind = a.kind := by
  induction m generalizing a with
  | zero => exact ⟨ha, rfl⟩
  | succ m ih =>
    cases a with
    | const c => exact ⟨ha, rfl⟩
    | var v =>
      rw [Forwarding.follow]
      cases hget : t.get? v with
      | none => exact ⟨ha, rfl⟩
      | some b =>
        obtain ⟨htyped, hkind⟩ := ih (h.typed v b hget)
        refine ⟨htyped, hkind.trans ?_⟩
        rw [h.kind v b hget, ← (ha v rfl).2]
        rfl

/-- The value that an argument stands for has the kind of the argument. -/
theorem resolve (h : t.Typed κ n) {a : Arg} (ha : a.Typed κ n) :
    (t.resolve a).Typed κ n ∧ (t.resolve a).kind = a.kind :=
  h.follow _ ha

theorem map_kind_resolve (h : t.Typed κ n) {args : List Arg} (hargs : ∀ a ∈ args, a.Typed κ n) :
    (args.map t.resolve).map Arg.kind = args.map Arg.kind := by
  rw [List.map_map]
  exact List.map_congr_left fun a ha => (h.resolve (hargs a ha)).2

theorem rename (h : t.Typed κ n) {pairs : List (Var × Var)}
    (hpairs : ∀ e ∈ pairs, e.1.Typed κ n ∧ e.2.Typed κ n ∧ e.2.kind = e.1.kind) :
    (t.rename pairs).Typed κ n := by
  induction pairs generalizing t with
  | nil => exact h
  | cons e pairs ih =>
    obtain ⟨hfrom, hto, hkind⟩ := hpairs e (List.mem_cons_self ..)
    exact ih (h.forward hfrom (Arg.typed_var hto) hkind) fun e he =>
      hpairs e (List.mem_cons_of_mem _ he)

end Forwarding.Typed

/-- An operation over typed variables whose kinds are such as the optimizer takes them for. -/
structure Operation.Typed (κ : Nat → Kind) (n : Nat) (op : Operation) : Prop where
  args : ∀ a ∈ op.args, a.Typed κ n
  result : ∀ r, op.result = some r → r.Typed κ n
  copy : op.opcode = .sameAs → ∀ r a, op.result = some r → op.args.head? = some a →
    a.kind = r.kind
  compare : op.opcode = .guardValue → ∀ a b, op.args = [a, b] → a.kind = b.kind
  folded : op.opcode.isFoldable = true → ∀ r, op.result = some r → r.kind = .int

theorem Operation.Typed.mono {op : Operation} (h : op.Typed κ n) (hκ : SameKinds n κ κ')
    (hle : n ≤ n') : op.Typed κ' n' :=
  { h with
    args := fun a ha => (h.args a ha).mono hκ hle
    result := fun r hr => (h.result r hr).mono hκ hle }

section Steps

variable {s : PassSettings} {p p' : Pass} {op op' : Operation} {ops : List Operation}

theorem kind_of_knownResult? {v : Value} (hmemo : s.memo = .empty)
    (h : knownResult? s op = some v) : op.opcode.isFoldable = true ∧ v.kind = .int := by
  unfold knownResult? at h
  split at h
  · split at h
    · rw [hmemo, PureMemo.lookup?, Option.bind_eq_some_iff] at h
      obtain ⟨_, -, h⟩ := h
      cases h
    · cases h
  · split at h
    · rename_i hfold
      obtain ⟨n, -, rfl⟩ := Option.map_eq_some_iff.mp h
      exact ⟨(Bool.and_eq_true_iff.mp hfold).1, rfl⟩
    · cases h

private theorem replace_typed {r : Var} {a : Arg} (hmemo : s.memo = .empty)
    (h : p.forwarding.Typed κ n) (hop : op.Typed κ n)
    (hfate : fate s p.guarded (p.forwarding.apply op) = .ok (.replace r a)) :
    (p.forwarding.forward r a).Typed κ n := by
  obtain ⟨hdefines, hvalue⟩ := replace_cases hfate
  have hr : op.result = some r := result_of_defines? hdefines
  refine h.forward (hop.result r hr) ?_ ?_
  · rcases hvalue with ⟨v, -, rfl⟩ | ⟨-, hhead⟩
    · exact Arg.typed_const v
    · obtain ⟨b, hb, rfl⟩ := Option.map_eq_some_iff.mp ((List.head?_map ..).symm.trans hhead)
      exact (h.resolve (hop.args b (List.mem_of_mem_head? hb))).1
  · rcases hvalue with ⟨v, hknown, rfl⟩ | ⟨hcopy, hhead⟩
    · obtain ⟨hfold, hkind⟩ := kind_of_knownResult? hmemo hknown
      exact hkind.trans (hop.folded hfold r hr).symm
    · obtain ⟨b, hb, rfl⟩ := Option.map_eq_some_iff.mp ((List.head?_map ..).symm.trans hhead)
      rw [(h.resolve (hop.args b (List.mem_of_mem_head? hb))).2]
      exact hop.copy hcopy r b hr hb

private theorem learn_typed {t : Forwarding} (h : t.Typed κ' n') (hp : p.forwarding.Typed κ n)
    (hκ : SameKinds n κ κ') (hle : n ≤ n') (hop : op.Typed κ n)
    (hop' : op' = p.forwarding.apply op ∨ op' = { opcode := .guardNotInvalidated }) :
    (Pass.learn t op').Typed κ' n' := by
  rcases Pass.learn_cases t op' with hlearn | ⟨v, c, hcompare, hargs, hlearn⟩
  · rw [hlearn]
    exact h
  · rw [hlearn]
    rcases hop' with rfl | rfl
    · obtain ⟨a, b, habs, ha, hb⟩ : ∃ a b, op.args = [a, b] ∧ p.forwarding.resolve a = .var v ∧
          p.forwarding.resolve b = .const c := by
        have hmap : op.args.map p.forwarding.resolve = [.var v, .const c] := hargs
        obtain ⟨a, rest, hop, ha, hrest⟩ := List.map_eq_cons_iff.mp hmap
        obtain ⟨b, rest', rfl, hb, hnil⟩ := List.map_eq_cons_iff.mp hrest
        rw [List.map_eq_nil_iff.mp hnil] at hop
        exact ⟨a, b, hop, ha, hb⟩
      have hargs := hop.args
      rw [habs] at hargs
      obtain ⟨hv, hvkind⟩ := hp.resolve (hargs a (by simp))
      obtain ⟨-, hckind⟩ := hp.resolve (hargs b (by simp))
      rw [ha] at hv hvkind
      rw [hb] at hckind
      refine h.forward ((hv v rfl).mono hκ hle) (Arg.typed_const c) ?_
      exact (hckind.trans (hop.compare hcompare a b habs).symm).trans hvkind.symm
    · cases hcompare

/--
The replacements are typed behind a part of a walk, where results with fresh numbers have got their
kinds. Without renaming there are none.
-/
structure Pass.KeepsTypes (s : PassSettings) (κ : Nat → Kind) (p : Pass) (κ' : Nat → Kind)
    (p' : Pass) : Prop where
  same : SameKinds p.shared.values.next κ κ'
  le : p.shared.values.next ≤ p'.shared.values.next
  typed : p'.forwarding.Typed κ' p'.shared.values.next
  plain : s.renames = false → κ' = κ ∧ p'.shared.values.next = p.shared.values.next

theorem Pass.KeepsTypes.refl (s : PassSettings)
    (h : p.forwarding.Typed κ p.shared.values.next) : KeepsTypes s κ p κ p :=
  ⟨.refl _ _, Nat.le_refl _, h, fun _ => ⟨rfl, rfl⟩⟩

theorem Pass.KeepsTypes.trans {q : Pass} {κ'' : Nat → Kind} (h : KeepsTypes s κ p κ' p')
    (h' : KeepsTypes s κ' p' κ'' q) : KeepsTypes s κ p κ'' q where
  same := h.same.trans h'.same h.le
  le := Nat.le_trans h.le h'.le
  typed := h'.typed
  plain hplain := ⟨(h'.plain hplain).1.trans (h.plain hplain).1,
    (h'.plain hplain).2.trans (h.plain hplain).2⟩

theorem Pass.Stepped.keepsTypes (hstep : Stepped s p p' op) (hmemo : s.memo = .empty)
    (h : p.forwarding.Typed κ p.shared.values.next) (hop : op.Typed κ p.shared.values.next) :
    ∃ κ', KeepsTypes s κ p κ' p' := by
  cases hstep with
  | drop _ heq =>
    obtain ⟨deps, rfl⟩ := heq
    exact ⟨κ, .refl _ _, Nat.le_refl _, h, fun _ => ⟨rfl, rfl⟩⟩
  | replace r a hfate heq =>
    obtain ⟨deps, rfl⟩ := heq
    exact ⟨κ, .refl _ _, Nat.le_refl _, replace_typed hmemo h hop hfate, fun _ => ⟨rfl, rfl⟩⟩
  | keep op' e t hfate hkeeps =>
    obtain ⟨deps, hkeeps⟩ := hkeeps
    have hop' : op' = p.forwarding.apply op ∨ op' = { opcode := .guardNotInvalidated } :=
      (keep_cases hfate).imp And.left And.right
    have hlearned := hkeeps.forwarding
    rcases hkeeps.renamed with ⟨hren, r, v, hr, hv, hid, rfl, hnext⟩ | ⟨-, -, rfl, hvalues⟩
    · -- the result gets the next number, with its own kind
      have hr' : op.result = some r := by
        rcases hop' with rfl | rfl
        · exact hr
        · cases hr
      have hκ : SameKinds p.shared.values.next κ
          fun i => if i = p.shared.values.next then r.kind else κ i := .extend _ _ _
      have hle : p.shared.values.next ≤ p'.shared.values.next := by
        rw [hnext]
        exact Nat.le_succ _
      have hkind : v.kind = r.kind := by
        have hkind := hkeeps.kind
        rw [hr, hv] at hkind
        exact Option.some.inj hkind
      have hv : v = ⟨p.shared.values.next, r.kind⟩ := by
        rw [← hid, ← hkind]
      refine ⟨_, hκ, hle, ?_, fun hplain => by rw [hren] at hplain; cases hplain⟩
      rw [hlearned]
      refine learn_typed (.forward (h.mono hκ hle) ?_ ?_ hkind) h hκ hle hop hop'
      · exact (hop.result r hr').mono hκ hle
      · rw [hv, hnext]
        exact Arg.typed_var (Var.typed_extend ..)
    · have hnext : p'.shared.values.next = p.shared.values.next := congrArg ValueIds.next hvalues
      refine ⟨κ, .refl _ _, Nat.le_of_eq hnext.symm, ?_, fun _ => ⟨rfl, hnext⟩⟩
      rw [hlearned, hnext]
      exact learn_typed h h (.refl _ _) (Nat.le_refl _) hop hop'

theorem Pass.keepsTypes_of_run {last : Option Operation} (hmemo : s.memo = .empty)
    (hrun : runFrom (Pass.run s ops) p = (.ok last, p'))
    (h : p.forwarding.Typed κ p.shared.values.next)
    (hops : ∀ op ∈ ops, op.Typed κ p.shared.values.next) : ∃ κ', KeepsTypes s κ p κ' p' := by
  induction ops generalizing p κ with
  | nil =>
    cases hrun
    exact ⟨κ, .refl s h⟩
  | cons op ops ih =>
    cases hfinal : op.isFinal with
    | true =>
      obtain ⟨-, rfl⟩ := Pass.run_cons_eq_ok_of_isFinal hfinal hrun
      exact ⟨κ, .refl s h⟩
    | false =>
      obtain ⟨q, hstep, hrest⟩ := Pass.run_cons_eq_ok hfinal hrun
      obtain ⟨κ₁, hq⟩ := hstep.keepsTypes hmemo h (hops op (List.mem_cons_self ..))
      obtain ⟨κ₂, hp'⟩ := ih hrest hq.typed fun o ho =>
        (hops o (List.mem_cons_of_mem _ ho)).mono hq.same hq.le
      exact ⟨κ₂, hq.trans hp'⟩

theorem ExtendsHeader.map_kind {inputs header vs : List Var} {i : Nat} {l : List Arg}
    {cs : List Operation} (h : ExtendsHeader inputs header i n l vs cs n') :
    vs.map (·.kind) = l.map Arg.kind := by
  induction h with
  | nil => rfl
  | reuse hreuse _ ih =>
    obtain ⟨rfl, -, -⟩ := eq_of_reusable? hreuse
    rw [List.map_cons, List.map_cons, ih]
    rfl
  | copy _ _ ih => rw [List.map_cons, List.map_cons, ih]

theorem ExtendsHeader.typed {inputs header vs : List Var} {i : Nat} {l : List Arg}
    {cs : List Operation} (h : ExtendsHeader inputs header i n l vs cs n')
    (hl : ∀ a ∈ l, a.Typed κ n) : ∃ κ', SameKinds n κ κ' ∧ ∀ v ∈ vs, v.Typed κ' n' := by
  induction h generalizing κ with
  | nil => exact ⟨κ, .refl _ _, by simp⟩
  | @reuse header vs i n n' a l cs v hreuse hrest ih =>
    obtain ⟨rfl, -, -⟩ := eq_of_reusable? hreuse
    obtain ⟨κ', hκ, hvs⟩ := ih fun a ha => hl a (List.mem_cons_of_mem _ ha)
    refine ⟨κ', hκ, fun w hw => ?_⟩
    rcases List.mem_cons.mp hw with rfl | hw
    · exact (hl _ (List.mem_cons_self ..) w rfl).mono hκ hrest.next_le
    · exact hvs w hw
  | @copy header vs i n n' a l cs _ hrest ih =>
    have hκ := SameKinds.extend n κ a.kind
    obtain ⟨κ', hκ', hvs⟩ := ih fun b hb =>
      (hl b (List.mem_cons_of_mem _ hb)).mono hκ (Nat.le_succ n)
    refine ⟨κ', hκ.trans hκ' (Nat.le_succ n), fun w hw => ?_⟩
    rcases List.mem_cons.mp hw with rfl | hw
    · exact (Var.typed_extend κ n a.kind).mono hκ' hrest.next_le
    · exact hvs w hw

/-- A loop proper whose header takes over values of the kinds of its inputs. -/
theorem PeeledInto.map_kind_resolve {q r : Pass} {closing : Operation} {inputs : List Var}
    {endArgs : List Arg} {result : Optimized} {header : LoopHeader} (hmemo : s.memo = .empty)
    (h : PeeledInto s p p' inputs closing ops endArgs result header q r)
    (hp : p.forwarding.Typed κ p.shared.values.next)
    (hinputs : ∀ v ∈ inputs, v.Typed κ p.shared.values.next)
    (hops : ∀ op ∈ ops, op.Typed κ p.shared.values.next)
    (hargs : ∀ a ∈ closing.args, a.Typed κ p.shared.values.next)
    (hend : ∀ a ∈ endArgs, a.Typed κ p.shared.values.next)
    (hkinds : endArgs.map Arg.kind = inputs.map (·.kind)) :
    (closing.args.map r.forwarding.resolve).map Arg.kind = closing.args.map Arg.kind := by
  have hle := h.built.next_le
  obtain ⟨κ₁, hκ₁, hvars⟩ := h.built.typed hend
  have hq : q.forwarding.Typed κ₁ q.shared.values.next := by
    rw [h.start.1]
    refine (hp.mono hκ₁ hle).rename fun e he => ?_
    obtain ⟨k, hk, hk'⟩ := HeaderTakes.exists_index he
    refine ⟨(hinputs e.1 (List.mem_of_getElem? hk)).mono hκ₁ hle,
      hvars e.2 (List.mem_of_getElem? hk'), ?_⟩
    have hsame : header.vars.map (·.kind) = inputs.map (·.kind) :=
      h.built.map_kind.trans hkinds
    have hkind := congrArg (·[k]?) hsame
    simp only [List.getElem?_map, hk, hk', Option.map_some, Option.some.injEq] at hkind
    exact hkind
  obtain ⟨last, hrun⟩ := h.run
  obtain ⟨κ₂, hr⟩ := Pass.keepsTypes_of_run (s := { s with renames := true }) hmemo hrun hq
    fun op hop => (hops op hop).mono hκ₁ hle
  exact hr.typed.map_kind_resolve fun a ha =>
    (hargs a ha).mono (hκ₁.trans hr.same hle) (Nat.le_trans hle hr.le)

end Steps

end HotLoop
