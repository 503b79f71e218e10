import HotLoop.Proofs.Replay.Rounds
import Mathlib.Data.List.Nodup

/-!
# Who owns a variable

A variable is bound to one name at most while something is recorded, the one that it has been made
for. So different names stand for different variables. Whatever is recorded later defines others.
-/

namespace HotLoop

open Replay

namespace Recorder

variable {r r' q : Recorder} {scope vars : List Var} {spec : OpSpec} {op : Operation}

/--
Names stand for variables of `scope`, and no two of them for the same one. The numbers there are
unique and below the next one.
-/
structure Owns (r : Recorder) (scope : List Var) : Prop where
  mem : ∀ n v, r.names.get? n = some v → v ∈ scope
  apart : ∀ n m v, r.names.get? n = some v → r.names.get? m = some v → n = m
  nodup : (scope.map (·.id)).Nodup
  lt_next : ∀ v ∈ scope, v.id < r.history.values.next

theorem Owns.mem_of_args (h : r.Owns scope) {specs : List ArgSpec} {args : List Arg}
    (hargs : specs.map (·.value? r.names) = args.map some) {v : Var} (hv : .var v ∈ args) :
    v ∈ scope := by
  obtain ⟨n, -, hn⟩ := exists_name_of_mem hargs hv
  exact h.mem n v hn

theorem Recorded.owns (h : Recorded spec r r' op) (hr : r.Owns scope) :
    r'.Owns (op.result.toList ++ scope) := by
  have hbinds := h.binds
  generalize spec.result = name at hbinds
  generalize op.result = result at hbinds
  cases hbinds with
  | nothing hnames hvalues =>
    refine ⟨?_, ?_, hr.nodup, ?_⟩
    · rw [hnames]
      exact hr.mem
    · rw [hnames]
      exact hr.apart
    · rw [hvalues]
      exact hr.lt_next
  | fresh name kind _ hnames hnext =>
    -- a name is bound to the new variable, or as it was
    have hcases {n : String} {v : Var} (hv : r'.names.get? n = some v) :
        (n = name ∧ v = ⟨r.history.values.next, kind⟩) ∨ r.names.get? n = some v := by
      rw [hnames, Table.get?_insert] at hv
      split at hv
      · rename_i hn
        exact .inl ⟨hn, (Option.some.inj hv).symm⟩
      · exact .inr hv
    have hnew {n : String} : r.names.get? n ≠ some ⟨r.history.values.next, kind⟩ := fun hget =>
      Nat.lt_irrefl _ (hr.lt_next _ (hr.mem n _ hget))
    refine ⟨fun n v hv => ?_, fun n m v hn hm => ?_, ?_, ?_⟩
    · rcases hcases hv with ⟨-, rfl⟩ | hold
      · exact List.mem_cons_self ..
      · exact List.mem_cons_of_mem _ (hr.mem n v hold)
    · rcases hcases hn with ⟨rfl, rfl⟩ | hn
      · exact ((hcases hm).resolve_right hnew).1.symm
      · rcases hcases hm with ⟨-, rfl⟩ | hm
        · exact absurd hn hnew
        · exact hr.apart n m v hn hm
    · refine List.nodup_cons.mpr ⟨fun hmem => ?_, hr.nodup⟩
      obtain ⟨v, hv, hid⟩ := List.mem_map.mp hmem
      exact Nat.ne_of_lt (hr.lt_next v hv) hid
    · rw [hnext]
      exact List.forall_mem_cons.mpr ⟨Nat.lt_succ_self _, fun v hv =>
        Nat.lt_succ_of_lt (hr.lt_next v hv)⟩

theorem Records.owns {specs : List OpSpec} {ops : List Operation} (h : Records specs r r' ops)
    (hr : r.Owns scope) : ∃ scope', scope ⊆ scope' ∧ r'.Owns scope' ∧
      ∀ op ∈ ops, ∀ v, .var v ∈ op.args → v ∈ scope' := by
  induction h generalizing scope with
  | nil r => exact ⟨scope, List.Subset.refl _, hr, by simp⟩
  | @cons spec specs r q r' op ops hop hops ih =>
    obtain ⟨scope', hsub, hr', hargs⟩ := ih (hop.owns hr)
    have hscope : scope ⊆ scope' := fun v hv => hsub (List.mem_append_right _ hv)
    exact ⟨scope', hscope, hr', List.forall_mem_cons.mpr
      ⟨fun v hv => hscope (hr.mem_of_args hop.args hv), hargs⟩⟩

theorem Records.result_ge {specs : List OpSpec} {ops : List Operation}
    (h : Records specs r r' ops) : ∀ op ∈ ops, ∀ v, op.result = some v →
      r.history.values.next ≤ v.id ∧ v.id < r'.history.values.next := by
  induction h with
  | nil r => simp
  | @cons spec specs r q r' op ops hop hops ih =>
    refine List.forall_mem_cons.mpr ⟨fun v hv => ?_, fun o ho v hv => ?_⟩
    · have hbinds := hop.binds
      rw [hv] at hbinds
      refine ⟨?_, Nat.lt_of_lt_of_le hbinds.lt_next hops.next_le⟩
      generalize spec.result = name at hbinds
      cases hbinds
      exact Nat.le_refl _
    · obtain ⟨hge, hlt⟩ := ih o ho v hv
      exact ⟨Nat.le_trans hop.binds.next_le hge, hlt⟩

/-- New inputs are owned by the names that they are bound to last. -/
theorem Enters.owns {l : List (String × Value)} (h : Enters l r q vars) (hr : r.names = .empty) :
    q.Owns vars := by
  have hlen : vars.length = l.length := by simpa using congrArg List.length h.ids
  have hnodup : (vars.map (·.id)).Nodup := h.ids ▸ List.nodup_range'
  have hpair {n : String} {v : Var} (hv : q.names.get? n = some v) :
      (n, v) ∈ (l.map Prod.fst).zip vars := by
    rw [h.names, hr] at hv
    exact (Table.mem_of_get?_insertAll hv).resolve_right fun hget => by cases hget
  refine ⟨fun n v hv => (List.of_mem_zip (hpair hv)).2, fun n m v hn hm => ?_, hnodup,
    fun v hv => ?_⟩
  · have hsnd : ((l.map Prod.fst).zip vars).map Prod.snd = vars :=
      List.map_snd_zip (Nat.le_of_eq (hlen.trans (List.length_map ..).symm))
    have hinj := List.inj_on_of_nodup_map (hsnd.symm ▸ hnodup.of_map) (hpair hn) (hpair hm) rfl
    exact congrArg Prod.fst hinj
  · have hid : v.id ∈ vars.map (·.id) := List.mem_map_of_mem hv
    rw [h.ids, List.mem_range'_1] at hid
    rw [h.next]
    exact hid.2

/-- A bridge that does not jump with a name twice jumps with different variables. -/
theorem Owns.nodup_of_names (h : r.Owns scope) {jump : List ArgSpec} {inputs : List Var}
    (hjump : (jump.filterMap ArgSpec.name?).Nodup)
    (hargs : jump.map (·.value? r.names) = (inputs.map Arg.var).map some) :
    inputs ⊆ scope ∧ (inputs.map (·.id)).Nodup := by
  have hscope : inputs ⊆ scope := fun v hv => h.mem_of_args hargs (List.mem_map_of_mem hv)
  have hnames : (jump.filterMap ArgSpec.name?).map r.names.get? = inputs.map some := by
    clear hjump hscope
    induction jump generalizing inputs with
    | nil =>
      rw [List.map_eq_nil_iff.mp (List.map_eq_nil_iff.mp hargs.symm)]
      rfl
    | cons spec jump ih =>
      rw [List.map_map] at hargs
      obtain ⟨v, inputs, rfl, hv, hrest⟩ := List.map_eq_cons_iff.mp hargs.symm
      rw [← List.map_map] at hrest
      cases spec with
      | const c => cases hv
      | name n =>
        obtain ⟨w, hw, heq⟩ := Option.map_eq_some_iff.mp hv.symm
        cases heq
        have htail := ih hrest.symm
        rw [List.map_cons, ← htail, ← hw]
        rfl
  have hinputs : inputs.Nodup := by
    refine List.Nodup.of_map some (hnames ▸ hjump.map_on fun n hn m hm heq => ?_)
    have hmem : r.names.get? n ∈ inputs.map some := hnames ▸ List.mem_map_of_mem hn
    obtain ⟨v, -, hv⟩ := List.mem_map.mp hmem
    exact h.apart n m v hv.symm (heq ▸ hv.symm)
  exact ⟨hscope, hinputs.map_on fun u hu w hw hid =>
    List.inj_on_of_nodup_map h.nodup (hscope hu) (hscope hw) hid⟩

end Recorder

end HotLoop
