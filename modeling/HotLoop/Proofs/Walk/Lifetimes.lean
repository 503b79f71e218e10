import HotLoop.Proofs.Chains
import HotLoop.Proofs.Execution.Scope
import HotLoop.Proofs.Walk.Step

/-!
# What a walk keeps track of

A walk follows every variable in scope to the end of its chain of replacements. A second walk over
a loop starts with chains from the inputs to the variables of the header, and some of these are
results that the walk redefines under fresh numbers. From there on the inputs lead to the wrong
value: they are stale. The invariant says which variables can still be relied on, and that nothing
reads the others.
-/

namespace HotLoop

/-- The variables that a walk has to do with, between two operations. -/
structure Lifetimes where
  seen : List Var
  /-- The numbers of the variables in scope that lead to a wrong value. -/
  stale : List Nat
  /-- The variables whose chains pass a number that has not been redefined yet. -/
  held : Nat → List Nat

namespace Lifetimes

def ofInputs (inputs : List Var) : Lifetimes := ⟨inputs, [], fun _ => []⟩

def Live (f : Lifetimes) (v : Var) : Prop := v ∈ f.seen ∧ v.id ∉ f.stale

/-- Behind an operation. -/
def next (f : Lifetimes) (op : Operation) : Lifetimes where
  seen := op.extend f.seen
  stale := (op.result.map fun r => f.held r.id).getD [] ++ f.stale
  held := fun i => if op.result.map (·.id) = some i then [] else op.copies (f.held i)

theorem held_next_of_ne {f : Lifetimes} {op : Operation} {i : Nat}
    (h : op.result.map (·.id) ≠ some i) : (f.next op).held i = op.copies (f.held i) := by
  simp only [next, if_neg h]

/-- Behind a list of operations. -/
def after (f : Lifetimes) (ops : List Operation) : Lifetimes := ops.foldl next f

theorem seen_after (f : Lifetimes) (ops : List Operation) :
    (f.after ops).seen = scopeAfter f.seen ops := by
  induction ops generalizing f with
  | nil => rfl
  | cons op ops ih => exact ih (f.next op)

end Lifetimes

/-- The invariant of a walk that has `ops` before it and then needs `args`. -/
structure Tracks (s : PassSettings) (p : Pass) (f : Lifetimes) (ops : List Operation)
    (args : List Arg) : Prop where
  grounded : p.forwarding.Grounded
  inScope : Scoped f.seen ops
  passing : ∀ v, f.Live v → ∀ op ∈ ops, ∀ r, op.result = some r →
    p.forwarding.Passes (.var v) r.id → v.id ∈ f.held r.id
  keeps : ∀ r, KeepsValue args r (f.held r) ops
  unread : Unread f.stale ops args
  uncopied : ∀ op ∈ ops, op.opcode = .sameAs → ∀ r, op.result = some r → f.held r.id = []
  /-- Without renaming no result is known before it is defined. -/
  plain : s.renames = false → f.stale = [] ∧ (∀ i, f.held i = []) ∧
    ∀ op ∈ ops, ∀ r, op.result = some r → p.forwarding.get? r = none
  closed : s.renames = false → ∀ v ∈ f.seen, ∀ w, p.forwarding.resolve (.var v) = .var w →
    w ∈ f.seen
  bounded : s.renames = true → p.forwarding.Below p.shared.values.next ∧
    (∀ v ∈ f.seen, v.id < p.shared.values.next) ∧
    ∀ op ∈ ops, ∀ r, op.result = some r → r.id < p.shared.values.next

namespace Tracks

variable {s : PassSettings} {p p' : Pass} {f : Lifetimes} {op : Operation} {ops : List Operation}
  {args : List Arg}

theorem live_of_mem_uses (h : Tracks s p f (op :: ops) args) {v : Var} (hv : v ∈ op.uses) :
    f.Live v :=
  ⟨h.inScope.1 v hv, h.unread.1 op (List.mem_cons_self ..) v hv⟩

theorem exists_passes_of_mem_apply (h : Tracks s p f (op :: ops) args) {w : Var}
    (hw : .var w ∈ (p.forwarding.apply op).args) :
    p.forwarding.IsEnd (.var w) ∧
      ∃ v, .var v ∈ op.args ∧ p.forwarding.resolve (.var v) = .var w := by
  obtain ⟨v, hv, hvw⟩ := Forwarding.mem_map_resolve_iff.mp hw
  exact ⟨hvw ▸ h.grounded.isEnd_resolve (.var v), v, hv, hvw⟩

/-- What still leads to its value behind an operation does not pass the result. -/
theorem not_passes_result (h : Tracks s p f (op :: ops) args) {v r : Var} (hv : v ∈ f.seen)
    (hstale : v.id ∉ (f.next op).stale) (hr : op.result = some r) :
    ¬ p.forwarding.Passes (.var v) r.id := by
  intro hpass
  have hnot : v.id ∉ f.stale := fun hm => hstale (List.mem_append_right _ hm)
  have hheld := h.passing v ⟨hv, hnot⟩ op (List.mem_cons_self ..) r hr hpass
  refine hstale (List.mem_append_left _ ?_)
  rw [hr]
  exact hheld

theorem live_of_live_next {v : Var} (hv : v ∈ f.seen) (hstale : v.id ∉ (f.next op).stale) :
    f.Live v :=
  ⟨hv, fun hm => hstale (List.mem_append_right _ hm)⟩

theorem passing_of_passes (h : Tracks s p f (op :: ops) args) {v : Var} (hv : v ∈ f.seen)
    (hstale : v.id ∉ (f.next op).stale) {o : Operation} (ho : o ∈ ops) {r : Var}
    (hr : o.result = some r) (hpass : p.forwarding.Passes (.var v) r.id) :
    v.id ∈ (f.next op).held r.id := by
  have hlive := live_of_live_next hv hstale
  have hheld := h.passing v hlive o (List.mem_cons_of_mem _ ho) r hr hpass
  have hne : op.result.map (·.id) ≠ some r.id := by
    intro heq
    obtain ⟨r', hr', hid⟩ := Option.map_eq_some_iff.mp heq
    exact h.not_passes_result hv hstale hr' (hid ▸ hpass)
  rw [Lifetimes.held_next_of_ne hne]
  exact subset_copies op _ hheld

private theorem exists_resolve_of_head_apply (h : Tracks s p f (op :: ops) args) {w : Var}
    (hw : (p.forwarding.apply op).args.head? = some (.var w)) :
    ∃ v rest, op.args = .var v :: rest ∧ f.Live v ∧
      p.forwarding.resolve (.var v) = .var w := by
  have hhead : (op.args.map p.forwarding.resolve).head? = some (.var w) := hw
  rw [List.head?_map] at hhead
  obtain ⟨x, hx, hxw⟩ := Option.map_eq_some_iff.mp hhead
  obtain ⟨rest, hargs⟩ := List.head?_eq_some_iff.mp hx
  obtain ⟨v, rfl⟩ := Forwarding.exists_var_of_resolve hxw
  have hmem : .var v ∈ op.args := by
    rw [hargs]
    exact List.mem_cons_self ..
  exact ⟨v, rest, hargs, h.live_of_mem_uses (mem_uses_of_mem_args hmem), hxw⟩

theorem replace_isEnd (h : Tracks s p f (op :: ops) args) {r : Var} {a : Arg}
    (hfate : fate s p.guarded (p.forwarding.apply op) = .ok (.replace r a)) :
    p.forwarding.IsEnd a ∧ ∀ w, a = .var w → w.id ≠ r.id := by
  obtain ⟨hdef, ⟨c, -, rfl⟩ | ⟨hop, hhead⟩⟩ := replace_cases hfate
  · exact ⟨Forwarding.isEnd_const _ c, fun w hw => by cases hw⟩
  · have hr : op.result = some r := result_of_defines? hdef
    have hmem : a ∈ op.args.map p.forwarding.resolve := List.mem_of_mem_head? hhead
    obtain ⟨x, -, rfl⟩ := List.mem_map.mp hmem
    refine ⟨h.grounded.isEnd_resolve x, fun w hw hid => ?_⟩
    rw [hw] at hhead
    obtain ⟨v, -, -, hlive, hvw⟩ := h.exists_resolve_of_head_apply hhead
    have hpass := h.grounded.passes_resolve hvw
    rw [hid] at hpass
    have hheld := h.passing v hlive op (List.mem_cons_self ..) r hr hpass
    rw [h.uncopied op (List.mem_cons_self ..) hop r hr] at hheld
    cases hheld

private theorem next_of (h : Tracks s p f (op :: ops) args)
    (hgrounded : p'.forwarding.Grounded)
    (hpassing : ∀ v, (f.next op).Live v → ∀ o ∈ ops, ∀ r, o.result = some r →
      p'.forwarding.Passes (.var v) r.id → v.id ∈ (f.next op).held r.id)
    (hplain : s.renames = false → ∀ o ∈ ops, ∀ r, o.result = some r →
      p'.forwarding.get? r = none)
    (hclosed : s.renames = false → ∀ v ∈ op.extend f.seen, ∀ w,
      p'.forwarding.resolve (.var v) = .var w → w ∈ op.extend f.seen)
    (hbounded : s.renames = true → p'.forwarding.Below p'.shared.values.next ∧
      p.shared.values.next ≤ p'.shared.values.next) :
    Tracks s p' (f.next op) ops args where
  grounded := hgrounded
  inScope := h.inScope.2.2.2
  passing := hpassing
  keeps r := by
    have hkeeps := h.keeps r
    unfold KeepsValue at hkeeps
    simp only [Lifetimes.next]
    split at hkeeps
    · rename_i heq
      rw [if_pos heq]
      exact keepsValue_nil ..
    · rename_i hne
      rw [if_neg hne]
      exact hkeeps
  unread := by
    simp only [Lifetimes.next]
    cases hr : op.result with
    | none => exact h.unread.tail
    | some r =>
      have hkeeps := h.keeps r.id
      unfold KeepsValue at hkeeps
      rw [if_pos (by rw [hr]; rfl)] at hkeeps
      exact hkeeps.2.append h.unread.tail
  uncopied o ho hop r hr := by
    have hheld := h.uncopied o (List.mem_cons_of_mem _ ho) hop r hr
    simp only [Lifetimes.next]
    split
    · rfl
    · rw [hheld]
      exact copies_nil op
  plain hren := by
    obtain ⟨hstale, hheld, -⟩ := h.plain hren
    refine ⟨?_, fun i => ?_, hplain hren⟩
    · simp only [Lifetimes.next, hstale, hheld]
      cases op.result <;> rfl
    · simp only [Lifetimes.next, hheld, copies_nil, ite_self]
  closed := hclosed
  bounded hren := by
    obtain ⟨-, hseen, hresults⟩ := h.bounded hren
    obtain ⟨hbelow, hle⟩ := hbounded hren
    refine ⟨hbelow, fun v hv => ?_, fun o ho r hr => ?_⟩
    · rcases mem_extend.mp hv with hdef | hv
      · have := hresults op (List.mem_cons_self ..) v (result_of_defines? hdef)
        omega
      · have := hseen v hv
        omega
    · have := hresults o (List.mem_cons_of_mem _ ho) r hr
      omega

theorem ne_of_later_result (h : Tracks s p f (op :: ops) args) {v : Var}
    (hv : v ∈ op.extend f.seen) {o : Operation} (ho : o ∈ ops) {r : Var}
    (hr : o.result = some r) : r.id ≠ v.id :=
  fun heq => h.inScope.2.2.2.fresh o ho r hr v hv heq.symm

private theorem not_passes_result_of_plain (h : Tracks s p f (op :: ops) args)
    (hren : s.renames = false) {v r : Var} (hv : v ∈ f.seen) (hr : op.result = some r) :
    ¬ p.forwarding.Passes (.var v) r.id := by
  obtain ⟨hstale, hheld, -⟩ := h.plain hren
  refine h.not_passes_result hv ?_ hr
  simp only [Lifetimes.next, hstale, hheld]
  cases op.result <;> simp

theorem drop (h : Tracks s p f (op :: ops) args)
    (hfate : fate s p.guarded (p.forwarding.apply op) = .ok .drop) (deps : FieldSet) :
    Tracks s { p with deps } (f.next op) ops args := by
  have hnone : (p.forwarding.apply op).defines? = none := defines?_of_drop hfate
  have hnone : op.defines? = none := hnone
  refine h.next_of h.grounded ?_ ?_ ?_ ?_
  · rintro v ⟨hv, hstale⟩ o ho r hr hpass
    have hseen : v ∈ f.seen := by
      rcases mem_extend.mp hv with hdef | hv
      · rw [hnone] at hdef
        cases hdef
      · exact hv
    exact h.passing_of_passes hseen hstale ho hr hpass
  · intro hren o ho r hr
    exact (h.plain hren).2.2 o (List.mem_cons_of_mem _ ho) r hr
  · intro hren v hv w hw
    rcases mem_extend.mp hv with hdef | hseen
    · rw [hnone] at hdef
      cases hdef
    · exact mem_extend.mpr (.inr (h.closed hren v hseen w hw))
  · intro hren
    exact ⟨(h.bounded hren).1, Nat.le_refl _⟩

theorem replace (h : Tracks s p f (op :: ops) args) {r : Var} {a : Arg}
    (hfate : fate s p.guarded (p.forwarding.apply op) = .ok (.replace r a)) (deps : FieldSet) :
    Tracks s { p with deps, forwarding := p.forwarding.forward r a } (f.next op) ops args := by
  obtain ⟨hend, hne⟩ := h.replace_isEnd hfate
  obtain ⟨hdef, hvalue⟩ := replace_cases hfate
  have hdef : op.defines? = some r := hdef
  have hr : op.result = some r := result_of_defines? hdef
  have hself : r ∈ op.extend f.seen := mem_extend.mpr (.inl hdef)
  refine h.next_of (h.grounded.forward hend hne) ?_ ?_ ?_ ?_
  · rintro v ⟨hv, hstale⟩ o ho r' hr' hpass
    rcases mem_extend.mp hv with hdefv | hseen
    · -- the result itself: its chain goes on where the copied chain ends
      have hvr : v = r := Option.some.inj (hdefv.symm.trans hdef)
      subst hvr
      have hlater := h.ne_of_later_result hv ho hr'
      rcases Forwarding.passes_forward_self hend hne hpass with hid | ⟨w, rfl, hid⟩
      · exact absurd hid hlater
      · rcases hvalue with ⟨c, -, hc⟩ | ⟨hop, hhead⟩
        · cases hc
        · obtain ⟨u, rest, hargs, hlive, huw⟩ := h.exists_resolve_of_head_apply hhead
          have hpass := h.grounded.passes_resolve huw
          rw [hid] at hpass
          have hheld := h.passing u hlive o (List.mem_cons_of_mem _ ho) r' hr' hpass
          have hop : op.opcode = .sameAs := hop
          have hother : op.result.map (·.id) ≠ some r'.id := by
            rw [hr]
            exact fun heq => hlater (Option.some.inj heq).symm
          rw [Lifetimes.held_next_of_ne hother]
          exact mem_copies hop hargs hr hheld
    · have hnot := h.not_passes_result hseen hstale hr
      rw [Forwarding.passes_forward_of_not_passes hne hnot] at hpass
      exact h.passing_of_passes hseen hstale ho hr' hpass
  · intro hren o ho r' hr'
    rw [Forwarding.get?_forward, if_neg]
    · exact (h.plain hren).2.2 o (List.mem_cons_of_mem _ ho) r' hr'
    · rintro ⟨-, hid⟩
      exact h.ne_of_later_result hself ho hr' hid
  · intro hren v hv w hw
    rcases mem_extend.mp hv with hdefv | hseen
    · have hvr : v = r := Option.some.inj (hdefv.symm.trans hdef)
      subst hvr
      rw [Forwarding.resolve_forward_of_passes h.grounded hend hne
        (Forwarding.passes_var _ v)] at hw
      subst hw
      rcases hvalue with ⟨c, -, hc⟩ | ⟨-, hhead⟩
      · cases hc
      · obtain ⟨u, -, -, hlive, huw⟩ := h.exists_resolve_of_head_apply hhead
        exact mem_extend.mpr (.inr (h.closed hren u hlive.1 w huw))
    · have hnot := h.not_passes_result_of_plain hren hseen hr
      rw [Forwarding.resolve_forward_of_not_passes h.grounded hne hnot] at hw
      exact mem_extend.mpr (.inr (h.closed hren v hseen w hw))
  · intro hren
    obtain ⟨hbelow, hseen, hresults⟩ := h.bounded hren
    refine ⟨hbelow.forward (hresults op (List.mem_cons_self ..) r hr) ?_, Nat.le_refl _⟩
    rintro w rfl
    rcases hvalue with ⟨c, -, hc⟩ | ⟨hop, hhead⟩
    · cases hc
    · obtain ⟨v, -, -, hlive, hvw⟩ := h.exists_resolve_of_head_apply hhead
      exact hbelow.passes (hseen v hlive.1) (h.grounded.passes_resolve hvw)

private theorem rename (h : Tracks s p f (op :: ops) args) (hren : s.renames = true) {r v : Var}
    (hr : op.result = some r) (hv : v.id = p.shared.values.next)
    (ht : p'.forwarding = p.forwarding.forward r (.var v))
    (hnext : p'.shared.values.next = p.shared.values.next + 1) :
    Tracks s p' (f.next op) ops args := by
  obtain ⟨hbelow, hseen, hresults⟩ := h.bounded hren
  have hrlt := hresults op (List.mem_cons_self ..) r hr
  have hend : p.forwarding.IsEnd (.var v) := hbelow.isEnd (Nat.le_of_eq hv.symm)
  have hne : ∀ w, Arg.var v = .var w → w.id ≠ r.id := by
    rintro _ ⟨rfl⟩
    omega
  refine h.next_of (ht ▸ h.grounded.forward hend hne) ?_ ?_ ?_ ?_
  · rintro u ⟨hu, hstale⟩ o ho r' hr' hpass
    rw [ht] at hpass
    rcases mem_extend.mp hu with hdef | huseen
    · have hur : u = r := Option.some.inj ((result_of_defines? hdef).symm.trans hr)
      subst hur
      have hrlt' := hresults o (List.mem_cons_of_mem _ ho) r' hr'
      rcases Forwarding.passes_forward_self hend hne hpass with hid | ⟨w, ⟨rfl⟩, hid⟩
      · exact absurd hid (h.ne_of_later_result hu ho hr')
      · omega
    · have hnot := h.not_passes_result huseen hstale hr
      rw [Forwarding.passes_forward_of_not_passes hne hnot] at hpass
      exact h.passing_of_passes huseen hstale ho hr' hpass
  · intro hno
    rw [hren] at hno
    cases hno
  · intro hno
    rw [hren] at hno
    cases hno
  · intro _
    rw [ht, hnext]
    refine ⟨(hbelow.mono (Nat.le_succ _)).forward (Nat.lt_succ_of_lt hrlt) ?_, Nat.le_succ _⟩
    rintro _ ⟨rfl⟩
    omega

private theorem keepNumber (h : Tracks s p f (op :: ops) args)
    (hnone : s.renames = true → op.defines? = none)
    (ht : p'.forwarding = p.forwarding) (hnext : p'.shared.values = p.shared.values) :
    Tracks s p' (f.next op) ops args := by
  refine h.next_of (ht ▸ h.grounded) ?_ ?_ ?_ ?_
  · rintro u ⟨hu, hstale⟩ o ho r' hr' hpass
    rw [ht] at hpass
    rcases mem_extend.mp hu with hdef | huseen
    · cases hren : s.renames with
      | true =>
        rw [hnone hren] at hdef
        cases hdef
      | false =>
        have hget := (h.plain hren).2.2 op (List.mem_cons_self ..) u (result_of_defines? hdef)
        have hend : p.forwarding.IsEnd (.var u) := Forwarding.isEnd_var.mpr hget
        obtain ⟨w, hw, hid⟩ := (Forwarding.passes_of_isEnd hend).mp hpass
        cases hw
        exact absurd hid.symm (h.ne_of_later_result hu ho hr')
    · exact h.passing_of_passes huseen hstale ho hr' hpass
  · intro hren o ho r' hr'
    rw [ht]
    exact (h.plain hren).2.2 o (List.mem_cons_of_mem _ ho) r' hr'
  · intro hren v hv w hw
    rw [ht] at hw
    rcases mem_extend.mp hv with hdef | hseen
    · have hget := (h.plain hren).2.2 op (List.mem_cons_self ..) v (result_of_defines? hdef)
      rw [Forwarding.resolve_of_get?_none hget] at hw
      cases hw
      exact hv
    · exact mem_extend.mpr (.inr (h.closed hren v hseen w hw))
  · intro hren
    rw [ht, hnext]
    exact ⟨(h.bounded hren).1, Nat.le_refl _⟩

private theorem learn (h : Tracks s p f ops args) {v : Var} {c : Value}
    (hend : ∀ o ∈ ops, ∀ r, o.result = some r → s.renames = false → r.id ≠ v.id)
    (hlt : s.renames = true → v.id < p.shared.values.next) :
    Tracks s { p with forwarding := p.forwarding.forward v (.const c) } f ops args := by
  have hconst : p.forwarding.IsEnd (.const c) := Forwarding.isEnd_const _ c
  have hne : ∀ w, Arg.const c = .var w → w.id ≠ v.id := fun w hw => by cases hw
  refine { h with grounded := h.grounded.forward hconst hne, passing := ?_, plain := ?_,
                  closed := ?_, bounded := ?_ }
  · intro u hu o ho r hr hpass
    rcases Forwarding.passes_of_passes_forward hconst hne hpass with hpass | ⟨-, w, hw, -⟩
    · exact h.passing u hu o ho r hr hpass
    · cases hw
  · intro hren
    obtain ⟨hstale, hheld, hget⟩ := h.plain hren
    refine ⟨hstale, hheld, fun o ho r hr => ?_⟩
    rw [Forwarding.get?_forward, if_neg fun hid => hend o ho r hr hren hid.2]
    exact hget o ho r hr
  · intro hren u hu w hw
    by_cases hpass : p.forwarding.Passes (.var u) v.id
    · rw [Forwarding.resolve_forward_of_passes h.grounded hconst hne hpass] at hw
      cases hw
    · rw [Forwarding.resolve_forward_of_not_passes h.grounded hne hpass] at hw
      exact h.closed hren u hu w hw
  · intro hren
    obtain ⟨hbelow, hseen, hresults⟩ := h.bounded hren
    have hvar : ∀ w, Arg.const c = .var w → w.id < p.shared.values.next :=
      fun w hw => by cases hw
    exact ⟨hbelow.forward (hlt hren) hvar, hseen, hresults⟩

/-- What a kept operation teaches is the value of a variable that the walk relies on. -/
theorem exists_passes_of_learned? (h : Tracks s p f (op :: ops) args) {op' : Operation} {v : Var}
    {a : Arg} (hfate : fate s p.guarded (p.forwarding.apply op) = .ok (.keep op'))
    (hlearned : op'.learned? = some (v, a)) :
    ∃ c, op' = p.forwarding.apply op ∧ op'.opcode = .guardValue ∧
      op'.args = [.var v, .const c] ∧ a = .const c ∧ p.forwarding.IsEnd (.var v) ∧
      ∃ u, f.Live u ∧ p.forwarding.Passes (.var u) v.id := by
  obtain ⟨hop, c, hargs, rfl⟩ := Pass.learned?_eq_some_iff.mp hlearned
  rcases keep_cases hfate with ⟨rfl, -, -⟩ | ⟨-, rfl⟩
  · have hmem : .var v ∈ (p.forwarding.apply op).args := by
      rw [hargs]
      exact List.mem_cons_self ..
    obtain ⟨hend, u, hu, huv⟩ := h.exists_passes_of_mem_apply hmem
    exact ⟨c, rfl, hop, hargs, rfl, hend, u, h.live_of_mem_uses (mem_uses_of_mem_args hu),
      h.grounded.passes_resolve huv⟩
  · cases hop

theorem keep (h : Tracks s p f (op :: ops) args) {op' e : Operation} {t : Forwarding}
    {deps : FieldSet} {guarded : Bool}
    (hfate : fate s p.guarded (p.forwarding.apply op) = .ok (.keep op'))
    (hkeeps : Pass.Keeps s { p with deps, guarded } p' op' op.failSlots t e) :
    Tracks s { p' with forwarding := t } (f.next op) ops args ∧
      Tracks s p' (f.next op) ops args := by
  have hplain : Tracks s { p' with forwarding := t } (f.next op) ops args ∧
      p.shared.values.next ≤ p'.shared.values.next := by
    rcases hkeeps.renamed with ⟨hren, r, v, hr, -, hv, rfl, hnext⟩ | ⟨hnone, -, rfl, hvalues⟩
    · have hop : op.result = some r := by
        rcases keep_cases hfate with ⟨rfl, -, -⟩ | ⟨-, rfl⟩
        · exact hr
        · cases hr
      refine ⟨?_, Nat.le_of_lt (Nat.lt_of_succ_le (Nat.le_of_eq hnext.symm))⟩
      exact h.rename hren hop hv rfl hnext
    · have hdef : s.renames = true → op.defines? = none := by
        intro hren
        rcases keep_cases hfate with ⟨rfl, -, -⟩ | ⟨hquasi, -⟩
        · have hresult : op.result = none := hnone hren
          simp only [Operation.defines?, hresult, ite_self]
        · have hquasi : op.opcode = .quasiimmutField := hquasi
          simp [Operation.defines?, hquasi, OpCode.isCheck]
      refine ⟨?_, by rw [hvalues]⟩
      exact h.keepNumber hdef rfl hvalues
  obtain ⟨htracks, hle⟩ := hplain
  refine ⟨htracks, ?_⟩
  have hlearn : p' = { p' with forwarding := Pass.learn t op' } := by
    rw [← hkeeps.forwarding]
  unfold Pass.learn at hlearn
  cases hlearned : op'.learned? with
  | none =>
    rw [hlearned] at hlearn
    rw [hlearn]
    exact htracks
  | some e =>
    obtain ⟨v, a⟩ := e
    obtain ⟨c, -, -, -, rfl, -, u, hlive, hpass⟩ := h.exists_passes_of_learned? hfate hlearned
    rw [hlearned] at hlearn
    rw [hlearn]
    refine htracks.learn ?_ ?_
    · intro o ho r hr hren heq
      have hheld := h.passing u hlive o (List.mem_cons_of_mem _ ho) r hr (heq ▸ hpass)
      rw [(h.plain hren).2.1] at hheld
      cases hheld
    · intro hren
      obtain ⟨hbelow, hseen, -⟩ := h.bounded hren
      exact Nat.lt_of_lt_of_le (hbelow.passes (hseen u hlive.1) hpass) hle

theorem step (h : Tracks s p f (op :: ops) args) (hstep : Pass.Stepped s p p' op) :
    Tracks s p' (f.next op) ops args := by
  cases hstep with
  | drop hfate heq =>
    obtain ⟨deps, rfl⟩ := heq
    exact h.drop hfate deps
  | replace r a hfate heq =>
    obtain ⟨deps, rfl⟩ := heq
    exact h.replace hfate deps
  | keep op' e t hfate hkeeps =>
    obtain ⟨deps, hkeeps⟩ := hkeeps
    exact (h.keep hfate hkeeps).2

end Tracks

end HotLoop
