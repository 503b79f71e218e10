import HotLoop.Proofs.Chains
import HotLoop.Trace
import Mathlib.Data.List.Nodup
import Mathlib.Data.List.Perm.Subperm
import Mathlib.Logic.Relation

/-!
# Cycles of replacements

A number leads to the number of the variable that it is replaced by. Where nothing leads back to
itself a chain comes to no number twice, so it ends before there are more steps than entries. This
is all that the bounded walk along a chain needs: what it resolves is resolved for good.
-/

namespace HotLoop

namespace Forwarding

variable {t : Forwarding}

/-- The number `i` is replaced by a variable of number `j`. -/
def Leads (t : Forwarding) (i j : Nat) : Prop :=
  ∃ w : Var, t.replacements.get? i = some (.var w) ∧ w.id = j

/-- No number leads back to itself, in however many steps. -/
def Acyclic (t : Forwarding) : Prop := ∀ i, ¬ Relation.TransGen t.Leads i i

theorem exists_of_not_isEnd {a : Arg} (h : ¬ t.IsEnd a) :
    ∃ v b, a = .var v ∧ t.get? v = some b := by
  cases a with
  | const c => exact absurd (isEnd_const t c) h
  | var v =>
    obtain ⟨b, hb⟩ := Option.ne_none_iff_exists'.mp (isEnd_var.not.mp h)
    exact ⟨v, b, rfl, hb⟩

theorem Acyclic.exists_visited (h : t.Acyclic) {a : Arg} {n : Nat}
    (hgoes : ∀ m ≤ n, ¬ t.IsEnd (t.next^[m] a)) :
    ∃ (v : Var) (ids : List Nat), t.next^[n] a = .var v ∧ ids.length = n + 1 ∧ ids.Nodup ∧
      ∀ i ∈ ids, t.replacements.get? i ≠ none ∧ (i = v.id ∨ Relation.TransGen t.Leads i v.id) := by
  induction n with
  | zero =>
    obtain ⟨v, b, hv, hb⟩ := exists_of_not_isEnd (hgoes 0 (Nat.le_refl _))
    refine ⟨v, [v.id], hv, rfl, List.nodup_singleton _, fun i hi => ?_⟩
    rw [List.mem_singleton.mp hi]
    exact ⟨Option.ne_none_iff_exists'.mpr ⟨b, hb⟩, .inl rfl⟩
  | succ n ih =>
    obtain ⟨v, ids, hv, hlength, hnodup, hids⟩ := ih fun m hm => hgoes m (Nat.le_succ_of_le hm)
    obtain ⟨w, c, hw, hc⟩ := exists_of_not_isEnd (hgoes (n + 1) (Nat.le_refl _))
    have hlead : t.Leads v.id w.id := by
      obtain ⟨u, b, hu, hb⟩ := exists_of_not_isEnd (hgoes n (Nat.le_succ n))
      cases hv.symm.trans hu
      rw [Function.iterate_succ_apply', hv, next, hb, Option.getD_some] at hw
      exact ⟨w, hw ▸ hb, rfl⟩
    have hreach : ∀ i ∈ ids, Relation.TransGen t.Leads i w.id := by
      intro i hi
      rcases (hids i hi).2 with rfl | hpath
      · exact .single hlead
      · exact hpath.tail hlead
    refine ⟨w, w.id :: ids, hw, by rw [List.length_cons, hlength],
      List.nodup_cons.mpr ⟨fun hmem => h w.id (hreach w.id hmem), hnodup⟩, fun i hi => ?_⟩
    rcases List.mem_cons.mp hi with rfl | hi
    · exact ⟨Option.ne_none_iff_exists'.mpr ⟨c, hc⟩, .inl rfl⟩
    · exact ⟨(hids i hi).1, .inr (hreach i hi)⟩

/-- A chain has no more steps than the table has entries. -/
theorem Acyclic.ends (h : t.Acyclic) (a : Arg) : ∃ n ≤ t.size, t.IsEnd (t.next^[n] a) := by
  by_contra hno
  have hgoes : ∀ m ≤ t.size, ¬ t.IsEnd (t.next^[m] a) := fun m hm he => hno ⟨m, hm, he⟩
  obtain ⟨v, ids, -, hlength, hnodup, hids⟩ := h.exists_visited hgoes
  have hkeys : ids ⊆ t.replacements.entries.map Prod.fst := fun i hi =>
    Table.mem_keys_of_get? (hids i hi).1
  have hle := (hnodup.subperm hkeys).length_le
  rw [hlength, List.length_map] at hle
  exact absurd hle (Nat.not_succ_le_self _)

theorem not_transGen_of_isEnd {n : Nat} {v : Var} (h : t.IsEnd (t.next^[n] (.var v))) :
    ¬ Relation.TransGen t.Leads v.id v.id := by
  intro hcycle
  induction n generalizing v with
  | zero =>
    obtain ⟨-, ⟨w, hget, rfl⟩, -⟩ := Relation.TransGen.head'_iff.mp hcycle
    cases (isEnd_var.mp h).symm.trans hget
  | succ n ih =>
    obtain ⟨-, ⟨w, hget, rfl⟩, hback⟩ := Relation.TransGen.head'_iff.mp hcycle
    have hget : t.get? v = some (.var w) := hget
    rw [Function.iterate_succ_apply, next, hget, Option.getD_some] at h
    exact ih h (.tail' hback ⟨w, hget, rfl⟩)

theorem acyclic_iff : t.Acyclic ↔ ∀ a, ∃ n ≤ t.size, t.IsEnd (t.next^[n] a) := by
  refine ⟨Acyclic.ends, fun h i => ?_⟩
  obtain ⟨n, -, hn⟩ := h (.var ⟨i, .int⟩)
  exact not_transGen_of_isEnd hn

theorem Grounded.acyclic (h : t.Grounded) : t.Acyclic := acyclic_iff.mpr h.ends

theorem Acyclic.isEnd_resolve (h : t.Acyclic) (a : Arg) : t.IsEnd (t.resolve a) := by
  obtain ⟨n, hn, he⟩ := h.ends a
  rw [resolve_eq (Nat.le_succ_of_le hn) he]
  exact he

/--
No argument of the operation is replaced any more, and no fail argument but one whose chain ends in
a constant: nothing can stand there for it.
-/
structure Resolved (t : Forwarding) (op : Operation) : Prop where
  args : ∀ a ∈ op.args, t.IsEnd a
  slots : ∀ v, some v ∈ op.failSlots → t.get? v = none ∨ ∃ c, t.resolve (.var v) = .const c

/-- The table resolves whatever it is applied to, once and for all. -/
structure Normalizes (t : Forwarding) : Prop where
  ends (a : Arg) : (∃ n ≤ t.size, t.resolve a = t.next^[n] a) ∧ t.IsEnd (t.resolve a)
  idempotent (a : Arg) : t.resolve (t.resolve a) = t.resolve a
  applies (op : Operation) : t.Resolved (t.apply op)
  apply_twice (op : Operation) : t.apply (t.apply op) = t.apply op
  forgets (trace : Trace) (h : trace.forwarding = t) :
    trace.forgetForwarding.forwarding = .empty ∧
      ∀ op ∈ trace.forgetForwarding.operations, t.Resolved op ∧ t.apply op = op
  forget_twice (trace : Trace) (h : trace.forwarding = t) :
    trace.forgetForwarding.forgetForwarding = trace.forgetForwarding

theorem Acyclic.resolved_apply (h : t.Acyclic) (op : Operation) : t.Resolved (t.apply op) := by
  refine ⟨fun a ha => ?_, fun v hv => ?_⟩
  · obtain ⟨b, -, rfl⟩ := List.mem_map.mp ha
    exact h.isEnd_resolve b
  · obtain ⟨slots, hslots⟩ : ∃ slots, op.failArgs = some slots := by
      cases hfail : op.failArgs with
      | none => simp [Operation.failSlots, apply, hfail] at hv
      | some slots => exact ⟨slots, rfl⟩
    simp only [Operation.failSlots, apply, hslots, Option.map_some, Option.getD_some] at hv
    obtain ⟨slot, -, hslot⟩ := List.mem_map.mp hv
    obtain ⟨u, -, rfl⟩ := Option.map_eq_some_iff.mp hslot
    cases hu : t.resolve (.var u) with
    | const c =>
      have hkept : t.resolveVar u = u := by rw [resolveVar, hu]; rfl
      exact .inr ⟨c, by rw [hkept, hu]⟩
    | var w =>
      have hend : t.resolveVar u = w := by rw [resolveVar, hu]; rfl
      exact .inl (hend ▸ isEnd_var.mp (hu ▸ h.isEnd_resolve (.var u)))

theorem forwarding_forgetForwarding (trace : Trace) :
    trace.forgetForwarding.forwarding = .empty := by
  unfold Trace.forgetForwarding
  split
  · rename_i hempty
    exact eq_empty_of_isEmpty hempty
  · rfl

theorem Acyclic.resolved_forgetForwarding {trace : Trace} (h : trace.forwarding.Acyclic)
    {op : Operation} (hop : op ∈ trace.forgetForwarding.operations) :
    trace.forwarding.Resolved op ∧ trace.forwarding.apply op = op := by
  have hmap : ∃ o, trace.forwarding.apply o = op := by
    unfold Trace.forgetForwarding at hop
    split at hop
    · rename_i hempty
      exact ⟨op, apply_of_isEmpty hempty op⟩
    · obtain ⟨o, -, ho⟩ := List.mem_map.mp hop
      exact ⟨o, ho⟩
  obtain ⟨o, rfl⟩ := hmap
  exact ⟨h.resolved_apply o, apply_apply h.isEnd_resolve o⟩

theorem Acyclic.normalizes (h : t.Acyclic) : t.Normalizes where
  ends a := by
    obtain ⟨n, hn, he⟩ := h.ends a
    exact ⟨⟨n, hn, resolve_eq (Nat.le_succ_of_le hn) he⟩, h.isEnd_resolve a⟩
  idempotent a := resolve_of_isEnd (h.isEnd_resolve a)
  applies := h.resolved_apply
  apply_twice := apply_apply h.isEnd_resolve
  forgets trace htable := by
    subst htable
    exact ⟨forwarding_forgetForwarding trace, fun op => h.resolved_forgetForwarding⟩
  forget_twice trace htable := by
    have hempty := forwarding_forgetForwarding trace
    generalize trace.forgetForwarding = forgotten at hempty ⊢
    exact if_pos (by rw [hempty]; rfl)

end Forwarding

end HotLoop
