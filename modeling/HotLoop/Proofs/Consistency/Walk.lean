import HotLoop.Proofs.Chains
import HotLoop.Proofs.Consistency.Flow
import HotLoop.Proofs.Walk.Slots
import HotLoop.Proofs.Walk.Step

/-!
# What a walk puts out is consistent

The chain of every variable in scope ends in a constant or in a variable that is visible in the
output, so that whatever a walk resolves is defined where it is used. This holds in both walks over
a loop, with one exception: a guard that defines a variable gets its fresh number before its slots
are resolved, and hands over that number for every variable that leads to the old one.
-/

namespace HotLoop

def copiesOf (ops : List Operation) (i : Nat) : List Nat :=
  ops.foldl (fun ids op => op.copies ids) [i]

private theorem subset_foldl_copies (ops : List Operation) (ids : List Nat) :
    ids ⊆ ops.foldl (fun ids op => op.copies ids) ids := by
  induction ops generalizing ids with
  | nil => exact List.Subset.refl _
  | cons op ops ih => exact List.Subset.trans (subset_copies op ids) (ih _)

theorem self_mem_copiesOf (ops : List Operation) (i : Nat) : i ∈ copiesOf ops i :=
  subset_foldl_copies ops [i] (List.mem_singleton_self i)

theorem copiesOf_append (ops ops' : List Operation) (i : Nat) :
    copiesOf ops i ⊆ copiesOf (ops ++ ops') i := by
  rw [copiesOf, copiesOf, List.foldl_append]
  exact subset_foldl_copies ops' _

theorem mem_copiesOf_concat {ops : List Operation} {op : Operation} {i : Nat} {v r : Var}
    {rest : List Arg} (hop : op.opcode = .sameAs) (hargs : op.args = .var v :: rest)
    (hr : op.result = some r) (hv : v.id ∈ copiesOf ops i) : r.id ∈ copiesOf (ops ++ [op]) i := by
  rw [copiesOf, List.foldl_append]
  exact mem_copies hop hargs hr hv

/-- Fail arguments are carried by guards that do not leave for good, and by what becomes a guard. -/
def Operation.CarriesExits (op : Operation) : Prop :=
  op.failVars ≠ [] → op.opcode = .quasiimmutField ∨
    op.isGuard = true ∧ ∀ e, op.descr ≠ some (.final e)

structure Operation.Inner (op : Operation) : Prop where
  straight : op.isFinal = false
  exits : op.CarriesExits
  silent : op.opcode = .quasiimmutField → op.result = none

/-- The numbers of what the operations define, checks included. -/
def resultIds (ops : List Operation) : List Nat := (ops.filterMap (·.result)).map (·.id)

theorem mem_resultIds {ops : List Operation} {op : Operation} {r : Var} (hop : op ∈ ops)
    (hr : op.result = some r) : r.id ∈ resultIds ops :=
  List.mem_map_of_mem (List.mem_filterMap.mpr ⟨op, hop, hr⟩)

theorem exists_of_mem_resultIds {ops : List Operation} {i : Nat} (h : i ∈ resultIds ops) :
    ∃ op ∈ ops, ∃ r, op.result = some r ∧ r.id = i := by
  obtain ⟨r, hr, hid⟩ := List.mem_map.mp h
  obtain ⟨op, hop, hres⟩ := List.mem_filterMap.mp hr
  exact ⟨op, hop, r, hres, hid⟩

theorem resultIds_append (ops ops' : List Operation) :
    resultIds (ops ++ ops') = resultIds ops ++ resultIds ops' := by
  simp [resultIds]

theorem subset_resultIds_cons (op : Operation) (ops : List Operation) :
    resultIds ops ⊆ resultIds (op :: ops) := by
  intro i hi
  obtain ⟨o, ho, r, hr, rfl⟩ := exists_of_mem_resultIds hi
  exact mem_resultIds (List.mem_cons_of_mem _ ho) hr

theorem resultIds_cons_nodup {op : Operation} {ops : List Operation}
    (h : (resultIds (op :: ops)).Nodup) :
    (resultIds ops).Nodup ∧ ∀ r, op.result = some r → r.id ∉ resultIds ops := by
  unfold resultIds at h
  cases hr : op.result with
  | none =>
    rw [List.filterMap_cons_none hr] at h
    exact ⟨h, by simp⟩
  | some r =>
    rw [List.filterMap_cons_some hr, List.map_cons, List.nodup_cons] at h
    refine ⟨h.2, ?_⟩
    rintro _ ⟨⟩
    exact h.1

/--
The invariant of a walk that has `done` behind it and `ops` before it, where `visible` are the
numbers that are visible behind its output. A chain of the table that the walk has started with
leads from `x` to `i` where `origin i x`.
-/
structure Reaches (s : PassSettings) (origin : Nat → Nat → Prop) (p : Pass) (done : List Operation)
    (seen : List Var) (visible : List Nat) (ops : List Operation) : Prop where
  grounded : p.forwarding.Grounded
  inScope : Scoped seen ops
  once : (resultIds ops).Nodup
  ends : ∀ v ∈ seen, ∀ w, p.forwarding.resolve (.var v) = .var w → w.id ∈ visible
  /-- Without renaming no result is known before it is defined. -/
  plain : s.renames = false → ∀ op ∈ ops, ∀ r, op.result = some r →
    p.forwarding.get? r = none ∧ r.id ∉ visible
  /-- A result is passed early only where the header has taken it, and that is never a copy. -/
  unpassed : ∀ op ∈ ops, ∀ r, op.result = some r → (s.renames = true → op.opcode = .sameAs) →
    ∀ v ∈ seen, ¬ p.forwarding.Passes (.var v) r.id
  passing : ∀ v ∈ seen, ∀ i, (s.renames = true → i ∈ resultIds ops) →
    p.forwarding.Passes (.var v) i → ∃ x, origin i x ∧ v.id ∈ copiesOf done x
  reflexive : s.renames = false → ∀ i, origin i i
  below : p.forwarding.Below p.shared.values.next
  seen_lt : ∀ v ∈ seen, v.id < p.shared.values.next
  visible_lt : ∀ i ∈ visible, i < p.shared.values.next
  results_lt : ∀ i ∈ resultIds ops, i < p.shared.values.next

namespace Reaches

variable {s : PassSettings} {origin : Nat → Nat → Prop} {p p' : Pass} {done : List Operation}
  {seen : List Var} {visible : List Nat} {op : Operation} {ops : List Operation}

theorem mem_seen_of_mem_args (h : Reaches s origin p done seen visible (op :: ops)) {v : Var}
    (hv : .var v ∈ op.args) : v ∈ seen :=
  h.inScope.1 v (mem_uses_of_mem_args hv)

theorem exists_resolve_of_mem_apply (h : Reaches s origin p done seen visible (op :: ops)) {w : Var}
    (hw : .var w ∈ (p.forwarding.apply op).args) :
    ∃ v, .var v ∈ op.args ∧ v ∈ seen ∧ p.forwarding.resolve (.var v) = .var w := by
  obtain ⟨v, hv, hvw⟩ := Forwarding.mem_map_resolve_iff.mp hw
  exact ⟨v, hv, h.mem_seen_of_mem_args hv, hvw⟩

private theorem tail (h : Reaches s origin p done seen visible (op :: ops)) (hdef : op.defines? = none) :
    Reaches s origin p (done ++ [op]) (op.extend seen) visible ops := by
  have hseen : op.extend seen = seen := by rw [Operation.extend, hdef]; rfl
  rw [hseen]
  exact {
    grounded := h.grounded
    inScope := hseen ▸ h.inScope.2.2.2
    once := (resultIds_cons_nodup h.once).1
    ends := h.ends
    plain := fun hplain o ho => h.plain hplain o (List.mem_cons_of_mem _ ho)
    unpassed := fun o ho => h.unpassed o (List.mem_cons_of_mem _ ho)
    passing := fun v hv i hi hpass => by
      obtain ⟨x, hx, hmem⟩ :=
        h.passing v hv i (fun hren => subset_resultIds_cons op ops (hi hren)) hpass
      exact ⟨x, hx, copiesOf_append done [op] x hmem⟩
    reflexive := h.reflexive
    below := h.below
    seen_lt := h.seen_lt
    visible_lt := h.visible_lt
    results_lt := fun i hi => h.results_lt i (subset_resultIds_cons op ops hi) }

private theorem replace_isEnd (h : Reaches s origin p done seen visible (op :: ops)) {r : Var} {a : Arg}
    (hfate : fate s p.guarded (p.forwarding.apply op) = .ok (.replace r a)) :
    p.forwarding.IsEnd a ∧ ∀ w, a = .var w → w.id ≠ r.id ∧ w.id ∈ visible ∧
      op.opcode = .sameAs ∧ ∃ v rest, op.args = .var v :: rest ∧ v ∈ seen ∧
        p.forwarding.Passes (.var v) w.id := by
  obtain ⟨hdef, ⟨c, -, rfl⟩ | ⟨hop, hhead⟩⟩ := replace_cases hfate
  · exact ⟨Forwarding.isEnd_const _ c, fun w hw => by cases hw⟩
  · have hr : op.result = some r := result_of_defines? hdef
    have hop : op.opcode = .sameAs := hop
    have hhead : (op.args.map p.forwarding.resolve).head? = some a := hhead
    rw [List.head?_map] at hhead
    obtain ⟨x, hx, rfl⟩ := Option.map_eq_some_iff.mp hhead
    refine ⟨h.grounded.isEnd_resolve x, fun w hw => ?_⟩
    obtain ⟨rest, hargs⟩ := List.head?_eq_some_iff.mp hx
    obtain ⟨v, rfl⟩ := Forwarding.exists_var_of_resolve hw
    have hv : v ∈ seen := h.mem_seen_of_mem_args (hargs ▸ List.mem_cons_self ..)
    have hpass := h.grounded.passes_resolve hw
    refine ⟨fun hid => ?_, h.ends v hv w hw, hop, v, rest, hargs, hv, hpass⟩
    exact h.unpassed op (List.mem_cons_self ..) r hr (fun _ => hop) v hv (hid ▸ hpass)

private theorem forward (h : Reaches s origin p done seen visible (op :: ops)) {r : Var} {a : Arg}
    {visible' : List Nat} (hr : op.result = some r)
    (ht : p'.forwarding = p.forwarding.forward r a) (hend : p.forwarding.IsEnd a)
    (hne : ∀ w, a = .var w → w.id ≠ r.id)
    (hnext : p.shared.values.next ≤ p'.shared.values.next)
    (hvisible : ∀ i, i ∈ visible' ↔ i ∈ visible ∨ ∃ w, a = .var w ∧ w.id = i)
    (hlt : ∀ w, a = .var w → w.id < p'.shared.values.next)
    (hnew : s.renames = false → ∀ w, a = .var w → w.id ∈ visible)
    (hlater : ∀ w, a = .var w → ∀ o ∈ ops, ∀ r', o.result = some r' →
      (s.renames = true → o.opcode = .sameAs) → w.id ≠ r'.id)
    (hcopy : ∀ w, a = .var w → (s.renames = true → w.id ∈ resultIds ops) →
      (∀ v ∈ seen, ¬ p.forwarding.Passes (.var v) r.id) ∧
        ∃ x, origin w.id x ∧ r.id ∈ copiesOf (done ++ [op]) x) :
    Reaches s origin p' (done ++ [op]) (op.extend seen) visible' ops := by
  have hrlt : r.id < p.shared.values.next := h.results_lt _ (mem_resultIds (List.mem_cons_self ..) hr)
  obtain ⟨honce, hdiffer⟩ := resultIds_cons_nodup h.once
  have hself (u : Var) (hdefu : op.defines? = some u) : u = r :=
    Option.some.inj ((result_of_defines? hdefu).symm.trans hr)
  have hmono : visible ⊆ visible' := fun i hi => (hvisible i).mpr (.inl hi)
  have hends (w : Var) (hw : a = .var w) : w.id ∈ visible' := (hvisible _).mpr (.inr ⟨w, hw, rfl⟩)
  exact {
    grounded := ht ▸ h.grounded.forward hend hne
    inScope := h.inScope.2.2.2
    once := honce
    ends := fun u hu w hw => by
      have hpass : p.forwarding.Passes (.var u) r.id ∨ u ∈ seen := by
        rcases mem_extend.mp hu with hdefu | hseen
        · exact .inl (hself u hdefu ▸ Forwarding.passes_var _ u)
        · exact .inr hseen
      rw [ht] at hw
      by_cases hyes : p.forwarding.Passes (.var u) r.id
      · rw [Forwarding.resolve_forward_of_passes h.grounded hend hne hyes] at hw
        exact hends w hw
      · rw [Forwarding.resolve_forward_of_not_passes h.grounded hne hyes] at hw
        exact hmono (h.ends u (hpass.resolve_left hyes) w hw)
    plain := fun hplain o ho r' hr' => by
      obtain ⟨hget, hunseen⟩ := h.plain hplain o (List.mem_cons_of_mem _ ho) r' hr'
      refine ⟨?_, fun hi => ?_⟩
      · rw [ht, Forwarding.get?_forward, if_neg]
        · exact hget
        · rintro ⟨-, hid⟩
          exact hdiffer r hr (hid ▸ mem_resultIds ho hr')
      · rcases (hvisible _).mp hi with hi | ⟨w, hw, hid⟩
        · exact hunseen hi
        · exact hunseen (hid ▸ hnew hplain w hw)
    unpassed := fun o ho r' hr' hsame u hu hpass => by
      rw [ht] at hpass
      rcases mem_extend.mp hu with hdefu | hseen
      · obtain rfl := hself u hdefu
        rcases Forwarding.passes_forward_self hend hne hpass with hid | ⟨w, hw, hid⟩
        · exact hdiffer u hr (hid ▸ mem_resultIds ho hr')
        · exact hlater w hw o ho r' hr' hsame hid
      · rcases Forwarding.passes_of_passes_forward hend hne hpass with hpass | ⟨-, w, hw, hid⟩
        · exact h.unpassed o (List.mem_cons_of_mem _ ho) r' hr' hsame u hseen hpass
        · exact hlater w hw o ho r' hr' hsame hid
    passing := fun u hu i hi hpass => by
      rw [ht] at hpass
      rcases mem_extend.mp hu with hdefu | hseen
      · obtain rfl := hself u hdefu
        rcases Forwarding.passes_forward_self hend hne hpass with rfl | ⟨w, hw, rfl⟩
        · cases hren : s.renames with
          | true => exact absurd (hi hren) (hdiffer u hr)
          | false => exact ⟨u.id, h.reflexive hren _, self_mem_copiesOf _ _⟩
        · exact (hcopy w hw hi).2
      · rcases Forwarding.passes_of_passes_forward hend hne hpass with hpass | ⟨hpassr, w, hw, rfl⟩
        · obtain ⟨x, hx, hmem⟩ :=
            h.passing u hseen i (fun hren => subset_resultIds_cons op ops (hi hren)) hpass
          exact ⟨x, hx, copiesOf_append done [op] x hmem⟩
        · exact absurd hpassr ((hcopy w hw hi).1 u hseen)
    reflexive := h.reflexive
    below := by
      rw [ht]
      exact (h.below.mono hnext).forward (Nat.lt_of_lt_of_le hrlt hnext) hlt
    seen_lt := fun u hu => by
      rcases mem_extend.mp hu with hdefu | hseen
      · exact hself u hdefu ▸ Nat.lt_of_lt_of_le hrlt hnext
      · exact Nat.lt_of_lt_of_le (h.seen_lt u hseen) hnext
    visible_lt := fun i hi => by
      rcases (hvisible i).mp hi with hi | ⟨w, hw, rfl⟩
      · exact Nat.lt_of_lt_of_le (h.visible_lt i hi) hnext
      · exact hlt w hw
    results_lt := fun i hi =>
      Nat.lt_of_lt_of_le (h.results_lt i (subset_resultIds_cons op ops hi)) hnext }

private theorem replace (h : Reaches s origin p done seen visible (op :: ops)) {r : Var} {a : Arg}
    (hfate : fate s p.guarded (p.forwarding.apply op) = .ok (.replace r a)) (deps : FieldSet) :
    Reaches s origin { p with deps, forwarding := p.forwarding.forward r a } (done ++ [op])
      (op.extend seen) visible ops := by
  obtain ⟨hend, hvar⟩ := h.replace_isEnd hfate
  have hr : op.result = some r := result_of_defines? (replace_cases hfate).1
  refine h.forward hr rfl hend (fun w hw => (hvar w hw).1) (Nat.le_refl _) (fun i => ?_)
    (fun w hw => h.visible_lt _ (hvar w hw).2.1) (fun _ w hw => (hvar w hw).2.1)
    (fun w hw o ho r' hr' hsame hid => ?_) (fun w hw hi => ?_)
  · refine ⟨.inl, fun hi => hi.elim id ?_⟩
    rintro ⟨w, hw, rfl⟩
    exact (hvar w hw).2.1
  · obtain ⟨-, -, -, u, -, -, hu, hpassu⟩ := hvar w hw
    exact h.unpassed o (List.mem_cons_of_mem _ ho) r' hr' hsame u hu (hid ▸ hpassu)
  · -- the copy leads wherever what it copies does
    obtain ⟨-, -, hop, u, rest, hargs, hu, hpassu⟩ := hvar w hw
    obtain ⟨x, hx, hmem⟩ :=
      h.passing u hu w.id (fun hren => subset_resultIds_cons op ops (hi hren)) hpassu
    exact ⟨h.unpassed op (List.mem_cons_self ..) r hr (fun _ => hop),
      x, hx, mem_copiesOf_concat hop hargs hr hmem⟩

private theorem rename (h : Reaches s origin p done seen visible (op :: ops)) (hren : s.renames = true)
    {r v : Var} (hr : op.result = some r) (hv : v.id = p.shared.values.next)
    (ht : p'.forwarding = p.forwarding.forward r (.var v))
    (hnext : p'.shared.values.next = p.shared.values.next + 1) :
    Reaches s origin p' (done ++ [op]) (op.extend seen) (v.id :: visible) ops := by
  have hrlt : r.id < p.shared.values.next := h.results_lt _ (mem_resultIds (List.mem_cons_self ..) hr)
  -- the fresh number is none of those that come later
  have hfresh : v.id ∉ resultIds ops := fun hi => by
    have := h.results_lt v.id (subset_resultIds_cons op ops hi)
    omega
  refine h.forward hr ht (h.below.isEnd (Nat.le_of_eq hv.symm)) ?_ (by omega) (fun i => ?_) ?_
    (fun hplain => ?_) ?_ ?_
  · rintro _ ⟨rfl⟩
    omega
  · simp [or_comm, eq_comm]
  · rintro _ ⟨rfl⟩
    omega
  · rw [hren] at hplain
    cases hplain
  · rintro _ ⟨rfl⟩ o ho r' hr' - hid
    exact hfresh (hid ▸ mem_resultIds ho hr')
  · rintro _ ⟨rfl⟩ hi
    exact absurd (hi hren) hfresh

private theorem keepNumber (h : Reaches s origin p done seen visible (op :: ops))
    (hnone : s.renames = true → op.result = none) (ht : p'.forwarding = p.forwarding)
    (hnext : p'.shared.values = p.shared.values) :
    Reaches s origin p' (done ++ [op]) (op.extend seen)
      ((op.result.map (·.id)).toList ++ visible) ops := by
  obtain ⟨honce, hlater⟩ := resultIds_cons_nodup h.once
  -- a result leads nowhere but to itself
  have hresult (r : Var) (hr : op.result = some r) : s.renames = false ∧ r.id ∉ visible ∧
      p.forwarding.IsEnd (.var r) ∧ r.id < p.shared.values.next := by
    have hplain : s.renames = false := by
      cases hren : s.renames with
      | true => rw [hnone hren] at hr; cases hr
      | false => rfl
    obtain ⟨hget, hnew⟩ := h.plain hplain op (List.mem_cons_self ..) r hr
    exact ⟨hplain, hnew, Forwarding.isEnd_var.mpr hget,
      h.results_lt _ (mem_resultIds (List.mem_cons_self ..) hr)⟩
  have hself (u : Var) (hu : op.defines? = some u) (i : Nat)
      (hpass : p.forwarding.Passes (.var u) i) : i = u.id := by
    obtain ⟨w, hw, hid⟩ := (Forwarding.passes_of_isEnd
      (hresult u (result_of_defines? hu)).2.2.1).mp hpass
    cases hw
    exact hid.symm
  have hmem (i : Nat) : i ∈ (op.result.map (·.id)).toList ++ visible ↔
      (∃ r, op.result = some r ∧ r.id = i) ∨ i ∈ visible := by
    rw [List.mem_append, Option.mem_toList, Option.map_eq_some_iff]
  exact {
    grounded := ht ▸ h.grounded
    inScope := h.inScope.2.2.2
    once := honce
    ends := fun u hu w hw => by
      rw [ht] at hw
      rw [hmem]
      rcases mem_extend.mp hu with hdefu | hseen
      · have hr := result_of_defines? hdefu
        rw [Forwarding.resolve_of_isEnd (hresult u hr).2.2.1] at hw
        cases hw
        exact .inl ⟨u, hr, rfl⟩
      · exact .inr (h.ends u hseen w hw)
    plain := fun hplain o ho r' hr' => by
      obtain ⟨hget, hnew⟩ := h.plain hplain o (List.mem_cons_of_mem _ ho) r' hr'
      refine ⟨ht ▸ hget, fun hi => ?_⟩
      rcases (hmem r'.id).mp hi with ⟨r, hr, hid⟩ | hi
      · exact hlater r hr (hid ▸ mem_resultIds ho hr')
      · exact hnew hi
    unpassed := fun o ho r' hr' hcopy u hu hpass => by
      rw [ht] at hpass
      rcases mem_extend.mp hu with hdefu | hseen
      · have hid := hself u hdefu r'.id hpass
        exact hlater u (result_of_defines? hdefu) (hid ▸ mem_resultIds ho hr')
      · exact h.unpassed o (List.mem_cons_of_mem _ ho) r' hr' hcopy u hseen hpass
    passing := fun u hu i hi hpass => by
      rw [ht] at hpass
      rcases mem_extend.mp hu with hdefu | hseen
      · have hid := hself u hdefu i hpass
        subst hid
        exact ⟨u.id, h.reflexive (hresult u (result_of_defines? hdefu)).1 _, self_mem_copiesOf _ _⟩
      · obtain ⟨x, hx, hmem⟩ :=
          h.passing u hseen i (fun hren => subset_resultIds_cons op ops (hi hren)) hpass
        exact ⟨x, hx, copiesOf_append done [op] x hmem⟩
    reflexive := h.reflexive
    below := by
      rw [ht, hnext]
      exact h.below
    seen_lt := fun u hu => by
      rw [hnext]
      rcases mem_extend.mp hu with hdefu | hseen
      · exact (hresult u (result_of_defines? hdefu)).2.2.2
      · exact h.seen_lt u hseen
    visible_lt := fun i hi => by
      rw [hnext]
      rcases (hmem i).mp hi with ⟨r, hr, rfl⟩ | hi
      · exact (hresult r hr).2.2.2
      · exact h.visible_lt i hi
    results_lt := fun i hi => by
      rw [hnext]
      exact h.results_lt i (subset_resultIds_cons op ops hi) }

private theorem learn (h : Reaches s origin p done seen visible ops) {v : Var} {c : Value}
    (hv : v.id ∈ visible) :
    Reaches s origin { p with forwarding := p.forwarding.forward v (.const c) } done seen visible
      ops := by
  have hconst : p.forwarding.IsEnd (.const c) := Forwarding.isEnd_const _ c
  have hne : ∀ w, Arg.const c = .var w → w.id ≠ v.id := fun w hw => by cases hw
  have hpasses {u : Var} {i : Nat}
      (hpass : (p.forwarding.forward v (.const c)).Passes (.var u) i) :
      p.forwarding.Passes (.var u) i := by
    rcases Forwarding.passes_of_passes_forward hconst hne hpass with hpass | ⟨-, w, hw, -⟩
    · exact hpass
    · cases hw
  refine { h with grounded := h.grounded.forward hconst hne, ends := ?_, plain := ?_, unpassed := ?_,
                  passing := fun u hu i hi hpass => h.passing u hu i hi (hpasses hpass)
                  below := ?_ }
  · intro u hu w hw
    by_cases hpass : p.forwarding.Passes (.var u) v.id
    · rw [Forwarding.resolve_forward_of_passes h.grounded hconst hne hpass] at hw
      cases hw
    · rw [Forwarding.resolve_forward_of_not_passes h.grounded hne hpass] at hw
      exact h.ends u hu w hw
  · intro hplain o ho r hr
    obtain ⟨hget, hnew⟩ := h.plain hplain o ho r hr
    refine ⟨?_, hnew⟩
    rw [Forwarding.get?_forward, if_neg]
    · exact hget
    · rintro ⟨-, hid⟩
      exact hnew (hid ▸ hv)
  · intro o ho r hr hcopy u hu hpass
    exact h.unpassed o ho r hr hcopy u hu (hpasses hpass)
  · have hvar : ∀ w, Arg.const c = .var w → w.id < p.shared.values.next := fun w hw => by cases hw
    exact h.below.forward (h.visible_lt _ hv) hvar

section Emitting

variable {op' e : Operation} {t : Forwarding} {deps : FieldSet} {guarded : Bool}

/-- The slots of the guard lead to no variable that the guard itself redefines. -/
private def SparesSlots (s : PassSettings) (p : Pass) (op : Operation) : Prop :=
  s.renames = true → ∀ r, op.result = some r → ∀ v ∈ op.failVars,
    ¬ p.forwarding.Passes (.var v) r.id

private theorem result_of_keep (hfate : fate s p.guarded (p.forwarding.apply op) = .ok (.keep op'))
    (hinner : op.Inner) : op'.result = op.result := by
  rcases keep_cases hfate with ⟨rfl, -, -⟩ | ⟨hquasi, rfl⟩
  · rfl
  · exact (hinner.silent hquasi).symm

private theorem visible_of_boxes (h : Reaches s origin p done seen visible (op :: ops))
    (hspares : SparesSlots s p op) (hresult : op'.result = op.result)
    (hkeeps : Pass.Keeps s { p with deps, guarded } p' op' op.failSlots t e) {w : Var}
    (hw : some w ∈ (NumberedSlots.ofSlots t op.failSlots).boxes) : w.id ∈ visible := by
  rw [NumberedSlots.boxes_ofSlots] at hw
  obtain ⟨slot, hslot, hmeaning⟩ := List.mem_map.mp hw
  cases slot with
  | none => cases hmeaning
  | some u =>
    have hu : u ∈ op.failVars := mem_failVars_iff.mpr hslot
    have huseen : u ∈ seen := h.inScope.1 u (List.mem_append_right _ hu)
    have hresolve : t.resolve (.var u) = .var w := Arg.var?_eq_some_iff.mp hmeaning
    rcases hkeeps.renamed with ⟨hren, r, v, hr, -, hv, rfl, -⟩ | ⟨-, -, rfl, -⟩
    · have hr : op.result = some r := hresult.symm.trans hr
      have hv : v.id = p.shared.values.next := hv
      have hne : ∀ w, Arg.var v = .var w → w.id ≠ r.id := by
        rintro _ ⟨rfl⟩
        have := h.results_lt _ (mem_resultIds (List.mem_cons_self ..) hr)
        omega
      rw [Forwarding.resolve_forward_of_not_passes h.grounded hne (hspares hren r hr u hu)]
        at hresolve
      exact h.ends u huseen w hresolve
    · exact h.ends u huseen w hresolve

private theorem visible_of_uses (h : Reaches s origin p done seen visible (op :: ops))
    (hinner : op.Inner) (hspares : SparesSlots s p op)
    (hfate : fate s p.guarded (p.forwarding.apply op) = .ok (.keep op'))
    (hkeeps : Pass.Keeps s { p with deps, guarded } p' op' op.failSlots t e) :
    ∀ w ∈ e.uses, w.id ∈ visible := by
  intro w hw
  rcases List.mem_append.mp hw with hw | hw
  · have ha := Arg.mem_filterMap_var?_iff.mp hw
    rw [hkeeps.args] at ha
    rcases keep_cases hfate with ⟨rfl, -, -⟩ | ⟨-, rfl⟩
    · obtain ⟨v, -, hv, hend⟩ := h.exists_resolve_of_mem_apply ha
      exact h.ends v hv w hend
    · cases ha
  · have hplain (hno : op.failVars = []) (he : e = { op' with result := e.result }) :
        w.id ∈ visible := by
      have hfail : e.failVars = op'.failVars := by rw [he]; rfl
      rw [hfail] at hw
      rcases keep_cases hfate with ⟨rfl, -, -⟩ | ⟨-, rfl⟩
      · rw [Forwarding.failVars_apply_eq_nil hno] at hw
        cases hw
      · cases hw
    cases hguard : op'.isGuard with
    | false =>
      refine hplain ?_ (hkeeps.same hguard)
      rcases keep_cases hfate with ⟨rfl, hquasi, -⟩ | ⟨-, rfl⟩
      · by_contra hne
        rcases hinner.exits hne with hyes | ⟨hyes, -⟩
        · exact hquasi hyes
        · have hno : op.isGuard = false := hguard
          rw [hyes] at hno
          cases hno
      · cases hguard
    | true =>
      have hfinishes := hkeeps.finishes hguard
      by_cases hfinal : ∃ d, op'.descr = some (.final d)
      · obtain ⟨d, hd⟩ := hfinal
        refine hplain ?_ (hfinishes.final d hd)
        rcases keep_cases hfate with ⟨rfl, hquasi, -⟩ | ⟨-, rfl⟩
        · by_contra hne
          rcases hinner.exits hne with hyes | ⟨-, hno⟩
          · exact hquasi hyes
          · exact hno d hd
        · cases hd
      · have hslots := hfinishes.slots fun d hd => hfinal ⟨d, hd⟩
        rw [mem_failVars_iff, Operation.failSlots, hslots, Option.getD_some] at hw
        exact h.visible_of_boxes hspares (result_of_keep hfate hinner) hkeeps hw

private theorem keep (h : Reaches s origin p done seen visible (op :: ops)) (hinner : op.Inner)
    (hspares : SparesSlots s p op)
    (hfate : fate s p.guarded (p.forwarding.apply op) = .ok (.keep op'))
    (hkeeps : Pass.Keeps s { p with deps, guarded } p' op' op.failSlots t e) :
    Flows visible [e] ((e.result.map (·.id)).toList ++ visible) ∧
      Reaches s origin p' (done ++ [op]) (op.extend seen) ((e.result.map (·.id)).toList ++ visible)
        ops := by
  have hresult := result_of_keep hfate hinner
  have hopcode : e.opcode ≠ .label ∧ e.isFinal = false := by
    rw [Operation.isFinal, hkeeps.opcode]
    rcases keep_cases hfate with ⟨rfl, -, -⟩ | ⟨-, rfl⟩
    · exact ⟨h.inScope.2.2.1, hinner.straight⟩
    · exact ⟨by decide, rfl⟩
  -- with the replacements that are in force before the guard has taught its value
  let q : Pass := { p' with forwarding := t }
  have hreaches : Reaches s origin q (done ++ [op]) (op.extend seen)
      ((e.result.map (·.id)).toList ++ visible) ops ∧ ∀ r, e.result = some r → r.id ∉ visible := by
    rcases hkeeps.renamed with ⟨hren, r, v, hr, he, hv, ht, hnext⟩ | ⟨hnone, he, ht, hvalues⟩
    · have hrenamed : Reaches s origin q (done ++ [op]) (op.extend seen) (v.id :: visible) ops :=
        h.rename hren (hresult ▸ hr) hv ht hnext
      rw [he]
      refine ⟨hrenamed, ?_⟩
      rintro _ ⟨⟩ hmem
      have := h.visible_lt _ hmem
      have hv : v.id = p.shared.values.next := hv
      omega
    · rw [hresult] at hnone he
      have hkept : Reaches s origin q (done ++ [op]) (op.extend seen)
          ((op.result.map (·.id)).toList ++ visible) ops := h.keepNumber hnone ht hvalues
      rw [he]
      refine ⟨hkept, fun r hr => ?_⟩
      cases hren : s.renames with
      | true => rw [hnone hren] at hr; cases hr
      | false => exact (h.plain hren op (List.mem_cons_self ..) r hr).2
  obtain ⟨hreaches, hnew⟩ := hreaches
  refine ⟨.single hopcode.2 (h.visible_of_uses hinner hspares hfate hkeeps) ?_, ?_⟩
  · refine visibleAfter_eq_ok.mpr (.inr ⟨hopcode.1, ?_⟩)
    cases he : e.result with
    | none => exact .inl ⟨rfl, rfl⟩
    | some r => exact .inr ⟨r, rfl, hnew r he, rfl⟩
  · have hlearn : p' = { p' with forwarding := Pass.learn t op' } := by rw [← hkeeps.forwarding]
    rcases Pass.learn_cases t op' with hsame | ⟨v, c, -, hargs, hforward⟩
    · rw [hsame] at hlearn
      rw [hlearn]
      exact hreaches
    · rw [hforward] at hlearn
      rw [hlearn]
      refine hreaches.learn (List.mem_append_right _ ?_)
      refine h.visible_of_uses hinner hspares hfate hkeeps v (mem_uses_of_mem_args ?_)
      rw [hkeeps.args, hargs]
      exact List.mem_cons_self ..

end Emitting

/-- What a walk over `ops` adds to the output between `p` and `p'`. -/
structure Appends (s : PassSettings) (p p' : Pass) (ops code : List Operation)
    (visible visible' : List Nat) : Prop where
  out : p'.out = p.out ++ code
  flows : Flows visible code visible'
  results : ∀ i ∈ resultIds code, s.renames = false ∧ i ∈ resultIds ops ∨
    s.renames = true ∧ p.shared.values.next ≤ i ∧ i < p'.shared.values.next

theorem Appends.trans {q : Pass} {ops' code code' : List Operation} {visible' visible'' : List Nat}
    (h : Appends s p p' ops code visible visible') (h' : Appends s p' q ops' code' visible' visible'')
    (hle : p.shared.values.next ≤ p'.shared.values.next)
    (hle' : p'.shared.values.next ≤ q.shared.values.next) :
    Appends s p q (ops ++ ops') (code ++ code') visible visible'' where
  out := by rw [h'.out, h.out, List.append_assoc]
  flows := h.flows.append h'.flows
  results i hi := by
    rw [resultIds_append, List.mem_append] at hi ⊢
    rcases hi with hi | hi
    · rcases h.results i hi with ⟨hren, hmem⟩ | hfresh
      · exact .inl ⟨hren, .inl hmem⟩
      · exact .inr ⟨hfresh.1, hfresh.2.1, Nat.lt_of_lt_of_le hfresh.2.2 hle'⟩
    · rcases h'.results i hi with ⟨hren, hmem⟩ | hfresh
      · exact .inl ⟨hren, .inr hmem⟩
      · exact .inr ⟨hfresh.1, Nat.le_trans hle hfresh.2.1, hfresh.2.2⟩

private theorem step (h : Reaches s origin p done seen visible (op :: ops))
    (hstep : Pass.Stepped s p p' op) (hinner : op.Inner) (hspares : SparesSlots s p op) :
    ∃ code visible', Appends s p p' [op] code visible visible' ∧
      Reaches s origin p' (done ++ [op]) (op.extend seen) visible' ops := by
  cases hstep with
  | drop hfate heq =>
    obtain ⟨deps, rfl⟩ := heq
    have hdef : (p.forwarding.apply op).defines? = none := defines?_of_drop hfate
    refine ⟨[], visible, ⟨(List.append_nil _).symm, .nil visible, by simp [resultIds]⟩, ?_⟩
    exact { h.tail hdef with }
  | replace r a hfate heq =>
    obtain ⟨deps, rfl⟩ := heq
    exact ⟨[], visible, ⟨(List.append_nil _).symm, .nil visible, by simp [resultIds]⟩,
      h.replace hfate deps⟩
  | keep op' e t hfate hkeeps =>
    obtain ⟨deps, hkeeps⟩ := hkeeps
    obtain ⟨hflows, hreaches⟩ := h.keep hinner hspares hfate hkeeps
    refine ⟨[e], _, ⟨hkeeps.out, hflows, fun i hi => ?_⟩, hreaches⟩
    obtain ⟨o, ho, r, hr, rfl⟩ := exists_of_mem_resultIds hi
    rw [List.mem_singleton.mp ho] at hr
    rcases hkeeps.renamed with ⟨hren, r', v, -, he, hv, -, hnext⟩ | ⟨hnone, he, -, -⟩
    · obtain rfl : v = r := Option.some.inj (he.symm.trans hr)
      have hv : v.id = p.shared.values.next := hv
      have hnext : p'.shared.values.next = p.shared.values.next + 1 := hnext
      exact .inr ⟨hren, by omega, by omega⟩
    · rw [result_of_keep hfate hinner] at hnone he
      refine .inl ⟨?_, mem_resultIds (List.mem_singleton_self op) (he.symm.trans hr)⟩
      cases hren : s.renames with
      | true =>
        rw [he, hnone hren] at hr
        cases hr
      | false => rfl

/-- What the operation hands over where it fails is no copy of what leads to its own result. -/
def SparesResult (origin : Nat → Nat → Prop) (ops : List Operation) (op : Operation) : Prop :=
  ∀ r, op.result = some r → ∀ v ∈ op.failVars, ∀ x, origin r.id x → v.id ∉ copiesOf ops x

theorem run (h : Reaches s origin p done seen visible ops) {last : Option Operation}
    (hrun : runFrom (Pass.run s ops) p = (.ok last, p')) (hinner : ∀ op ∈ ops, op.Inner)
    (hspares : s.renames = true → ∀ op ∈ ops, SparesResult origin (done ++ ops) op) :
    ∃ code visible', Appends s p p' ops code visible visible' ∧
      Reaches s origin p' (done ++ ops) (scopeAfter seen ops) visible' [] := by
  induction ops generalizing p done seen visible with
  | nil =>
    simp only [Pass.run, runFrom_pure, Prod.mk.injEq] at hrun
    obtain ⟨-, rfl⟩ := hrun
    refine ⟨[], visible, ⟨(List.append_nil _).symm, .nil visible, by simp [resultIds]⟩, ?_⟩
    rw [List.append_nil]
    exact h
  | cons op ops ih =>
    have hop := hinner op (List.mem_cons_self ..)
    obtain ⟨q, hstepped, hrest⟩ := Pass.run_cons_eq_ok hop.straight hrun
    have hassoc : done ++ op :: ops = done ++ [op] ++ ops := by simp
    have hslots : SparesSlots s p op := by
      intro hren r hr v hv hpass
      have hmem : r.id ∈ resultIds (op :: ops) := mem_resultIds (List.mem_cons_self ..) hr
      obtain ⟨x, hx, hcopy⟩ := h.passing v (h.inScope.1 v (List.mem_append_right _ hv)) r.id
        (fun _ => hmem) hpass
      exact hspares hren op (List.mem_cons_self ..) r hr v hv x hx (copiesOf_append done _ x hcopy)
    obtain ⟨code, visible₁, happends, hreaches⟩ := h.step hstepped hop hslots
    obtain ⟨code', visible₂, happends', hreaches'⟩ := ih hreaches hrest
      (fun o ho => hinner o (List.mem_cons_of_mem _ ho))
      fun hren o ho => hassoc ▸ hspares hren o (List.mem_cons_of_mem _ ho)
    rw [hassoc]
    exact ⟨code ++ code', visible₂, happends.trans happends' hstepped.next_le
      (Pass.next_le_of_run hrest fun o ho => (hinner o (List.mem_cons_of_mem _ ho)).straight),
      hreaches'⟩

end Reaches

end HotLoop
