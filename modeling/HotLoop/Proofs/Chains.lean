import HotLoop.Forwarding
import Mathlib.Logic.Function.Iterate
import Mathlib.Order.Nat
import Mathlib.Tactic.ByContra

/-!
# Chains of replacements

A forwarding table is grounded when every chain of replacements comes to an end within as many steps
as the table has entries. A grounded table stays grounded when a variable is forwarded to the end
of another chain, and the new entry changes the ends of exactly the chains that pass the variable.
-/

namespace HotLoop

namespace Table

variable {κ α : Type} [DecidableEq κ]

def Distinct (t : Table κ α) : Prop := (t.entries.map Prod.fst).Nodup

omit [DecidableEq κ] in
theorem distinct_empty : (empty : Table κ α).Distinct := List.nodup_nil

theorem get?_eq_none_iff (t : Table κ α) (k : κ) :
    t.get? k = none ↔ ∀ e ∈ t.entries, e.1 ≠ k := by
  simp only [get?]
  induction t.entries with
  | nil => simp [find]
  | cons e es ih => by_cases h : e.1 = k <;> simp [find, h, ih]

theorem mem_keys_of_get? {t : Table κ α} {k : κ} (h : t.get? k ≠ none) :
    k ∈ t.entries.map Prod.fst := by
  by_contra hnot
  exact h ((t.get?_eq_none_iff k).mpr fun e he hk => hnot (hk ▸ List.mem_map_of_mem he))

theorem entries_erase_of_get?_none {t : Table κ α} {k : κ} (h : t.get? k = none) :
    (t.erase k).entries = t.entries := by
  have hne := (t.get?_eq_none_iff k).mp h
  exact List.filter_eq_self.mpr fun e he => by simpa using hne e he

theorem distinct_insert {t : Table κ α} (h : t.Distinct) (k : κ) (a : α) :
    (t.insert k a).Distinct := by
  have hsub : ((t.erase k).entries.map Prod.fst).Sublist (t.entries.map Prod.fst) :=
    List.filter_sublist.map _
  refine List.nodup_cons.mpr ⟨?_, hsub.nodup h⟩
  simp [erase]

theorem size_insert_of_get?_none {t : Table κ α} {k : κ} (h : t.get? k = none) (a : α) :
    (t.insert k a).size = t.size + 1 := by
  simp [size, insert, entries_erase_of_get?_none h]

theorem size_le_size_erase_add_one {t : Table κ α} (h : t.Distinct) (k : κ) :
    t.size ≤ (t.erase k).size + 1 := by
  obtain ⟨entries⟩ := t
  simp only [Distinct] at h
  simp only [size, erase]
  induction entries with
  | nil => simp
  | cons e es ih =>
    have hes := (List.nodup_cons.mp h).2
    have hnot := (List.nodup_cons.mp h).1
    by_cases he : e.1 = k
    · have hkeep : es.filter (fun f => decide (f.1 ≠ k)) = es := by
        refine List.filter_eq_self.mpr fun f hf => ?_
        have : f.1 ≠ k := fun hk => hnot (by rw [he, ← hk]; exact List.mem_map_of_mem hf)
        simpa using this
      rw [List.filter_cons_of_neg (by simpa using he), hkeep]
      simp
    · rw [List.filter_cons_of_pos (by simpa using he)]
      simp only [List.length_cons]
      have := ih hes
      omega

theorem size_le_size_insert {t : Table κ α} (h : t.Distinct) (k : κ) (a : α) :
    t.size ≤ (t.insert k a).size :=
  size_le_size_erase_add_one h k

end Table

namespace Forwarding

variable {t : Forwarding}

/-- One step along a chain; a chain that has ended stays where it is. -/
def next (t : Forwarding) : Arg → Arg
  | .var v => (t.get? v).getD (.var v)
  | .const c => .const c

def IsEnd (t : Forwarding) (a : Arg) : Prop := ∀ v, a = .var v → t.get? v = none

@[simp] theorem isEnd_const (t : Forwarding) (c : Value) : t.IsEnd (.const c) := by
  intro v h
  cases h

@[simp] theorem isEnd_var {v : Var} : t.IsEnd (.var v) ↔ t.get? v = none :=
  ⟨fun h => h v rfl, fun h w hw => by cases hw; exact h⟩

theorem next_of_isEnd {a : Arg} (h : t.IsEnd a) : t.next a = a := by
  cases a with
  | const c => rfl
  | var v => simp [next, isEnd_var.mp h]

theorem iterate_next_of_isEnd {a : Arg} (h : t.IsEnd a) (n : Nat) : t.next^[n] a = a :=
  Function.iterate_fixed (next_of_isEnd h) n

theorem follow_eq_iterate (n : Nat) (a : Arg) : t.follow n a = t.next^[n] a := by
  induction n generalizing a with
  | zero => cases a <;> rfl
  | succ n ih =>
    cases a with
    | const c => rw [follow_const, iterate_next_of_isEnd (isEnd_const t c)]
    | var v =>
      rw [Function.iterate_succ_apply, follow, next]
      cases h : t.get? v with
      | none => exact (iterate_next_of_isEnd (isEnd_var.mpr h) n).symm
      | some a => exact ih a

theorem iterate_next_of_le {a : Arg} {m n : Nat} (h : t.IsEnd (t.next^[m] a)) (hmn : m ≤ n) :
    t.next^[n] a = t.next^[m] a := by
  obtain ⟨k, rfl⟩ := Nat.exists_eq_add_of_le' hmn
  rw [Function.iterate_add_apply, iterate_next_of_isEnd h]

/-- Every chain ends within as many steps as there are entries. -/
structure Grounded (t : Forwarding) : Prop where
  distinct : t.replacements.Distinct
  ends : ∀ a, ∃ n ≤ t.size, t.IsEnd (t.next^[n] a)

theorem grounded_empty : empty.Grounded :=
  ⟨Table.distinct_empty, fun _ => ⟨0, Nat.zero_le _, fun _ _ => rfl⟩⟩

theorem resolve_eq {a : Arg} {n : Nat} (hn : n ≤ t.size + 1) (h : t.IsEnd (t.next^[n] a)) :
    t.resolve a = t.next^[n] a := by
  rw [resolve, follow_eq_iterate, iterate_next_of_le h hn]

theorem Grounded.isEnd_resolve (h : t.Grounded) (a : Arg) : t.IsEnd (t.resolve a) := by
  obtain ⟨n, hn, he⟩ := h.ends a
  rw [resolve_eq (by omega) he]
  exact he

theorem resolve_of_isEnd {a : Arg} (h : t.IsEnd a) : t.resolve a = a :=
  resolve_eq (n := 0) (Nat.zero_le _) h

theorem resolveVar_resolveVar (h : ∀ a, t.IsEnd (t.resolve a)) (v : Var) :
    t.resolveVar (t.resolveVar v) = t.resolveVar v := by
  cases hv : t.resolve (.var v) with
  | const c =>
    have hkept : t.resolveVar v = v := by rw [resolveVar, hv]; rfl
    rw [hkept, hkept]
  | var w =>
    have hend : t.resolveVar v = w := by rw [resolveVar, hv]; rfl
    have hstays : t.resolve (.var w) = .var w := hv ▸ resolve_of_isEnd (h (.var v))
    rw [hend, resolveVar, hstays]
    rfl

/-- To make all replacements once more changes nothing, where every chain ends. -/
theorem apply_apply (h : ∀ a, t.IsEnd (t.resolve a)) (op : Operation) :
    t.apply (t.apply op) = t.apply op := by
  simp [apply, Function.comp_def, fun a => resolve_of_isEnd (h a), resolveVar_resolveVar h]

theorem Grounded.apply_apply (h : t.Grounded) (op : Operation) :
    t.apply (t.apply op) = t.apply op :=
  Forwarding.apply_apply h.isEnd_resolve op

theorem eq_empty_of_isEmpty {σ : Forwarding} (h : σ.isEmpty = true) : σ = .empty := by
  obtain ⟨⟨entries⟩⟩ := σ
  have hnil : entries = [] :=
    List.length_eq_zero_iff.mp (by simpa [isEmpty, size, Table.size] using h)
  subst hnil
  rfl

/-- Where nothing is replaced an operation is resolved already. -/
theorem apply_eq_self {op : Operation} (hargs : ∀ v, .var v ∈ op.args → t.get? v = none)
    (hslots : ∀ v, some v ∈ op.failSlots → t.get? v = none) : t.apply op = op := by
  have hargs : op.args.map t.resolve = op.args := by
    refine (List.map_congr_left fun a ha => resolve_of_isEnd fun v hv => ?_).trans (List.map_id _)
    exact hargs v (hv ▸ ha)
  have hslots (slots : List (Option Var)) (hfail : op.failArgs = some slots) :
      slots.map (·.map t.resolveVar) = slots := by
    refine (List.map_congr_left fun slot hslot => ?_).trans (List.map_id _)
    cases slot with
    | none => rfl
    | some v =>
      have hv : t.get? v = none := hslots v (by rwa [Operation.failSlots, hfail])
      rw [Option.map_some, resolveVar, resolve_of_get?_none hv]
      rfl
  rw [apply, hargs]
  cases hfail : op.failArgs with
  | none => rw [Option.map_none, ← hfail]
  | some slots => rw [Option.map_some, hslots slots hfail, ← hfail]

theorem apply_of_isEmpty {σ : Forwarding} (h : σ.isEmpty = true) (op : Operation) :
    σ.apply op = op := by
  obtain rfl := eq_empty_of_isEmpty h
  exact apply_eq_self (fun _ _ => rfl) fun _ _ => rfl

theorem Grounded.resolve_iterate (h : t.Grounded) (n : Nat) (a : Arg) :
    t.resolve (t.next^[n] a) = t.resolve a := by
  obtain ⟨m, hm, he⟩ := h.ends a
  obtain ⟨k, hk, hk'⟩ := h.ends (t.next^[n] a)
  rw [resolve_eq (by omega) he, resolve_eq (by omega) hk']
  rw [← Function.iterate_add_apply] at hk' ⊢
  rcases Nat.le_total (k + n) m with h' | h'
  · exact (iterate_next_of_le hk' h').symm
  · exact iterate_next_of_le he h'

/-- The chain of `a` comes to a variable of number `i`. -/
def Passes (t : Forwarding) (a : Arg) (i : Nat) : Prop := ∃ n v, t.next^[n] a = .var v ∧ v.id = i

theorem passes_var (t : Forwarding) (v : Var) : t.Passes (.var v) v.id := ⟨0, v, rfl, rfl⟩

theorem passes_of_isEnd {a : Arg} (h : t.IsEnd a) {i : Nat} :
    t.Passes a i ↔ ∃ v, a = .var v ∧ v.id = i := by
  constructor
  · rintro ⟨n, v, hn, hv⟩
    rw [iterate_next_of_isEnd h] at hn
    exact ⟨v, hn, hv⟩
  · rintro ⟨v, rfl, hv⟩
    exact ⟨0, v, rfl, hv⟩

theorem Grounded.passes_resolve (h : t.Grounded) {a : Arg} {v : Var}
    (hv : t.resolve a = .var v) : t.Passes a v.id := by
  obtain ⟨n, hn, he⟩ := h.ends a
  rw [resolve_eq (by omega) he] at hv
  exact ⟨n, v, hv, rfl⟩

theorem Grounded.passes_iff_of_isEnd (h : t.Grounded) {v : Var} (hv : t.IsEnd (.var v)) {a : Arg} :
    t.Passes a v.id ↔ ∃ w, t.resolve a = .var w ∧ w.id = v.id := by
  constructor
  · rintro ⟨n, w, hn, hw⟩
    have hwe : t.IsEnd (.var w) := by
      rw [isEnd_var] at hv ⊢
      simpa only [get?, hw] using hv
    refine ⟨w, ?_, hw⟩
    rw [← h.resolve_iterate n, hn, resolve_of_isEnd hwe]
  · rintro ⟨w, hw, hid⟩
    exact hid ▸ h.passes_resolve hw

section Forward

variable {v : Var} {a : Arg}

theorem forward_of_ne (h : ∀ w, a = .var w → w.id ≠ v.id) :
    t.forward v a = ⟨t.replacements.insert v.id a⟩ := by
  rw [forward, if_neg]
  rintro rfl
  exact h v rfl rfl

theorem next_forward (h : ∀ w, a = .var w → w.id ≠ v.id) (b : Arg) :
    (t.forward v a).next b =
      match b with
      | .var w => if w.id = v.id then a else t.next (.var w)
      | .const c => .const c := by
  cases b with
  | const c => rfl
  | var w =>
    have hne : a ≠ .var v := fun ha => h v ha rfl
    by_cases hw : w.id = v.id
    · simp [next, get?_forward, hw, hne]
    · simp [next, get?_forward, hw]

theorem next_forward_of_ne (h : ∀ w, a = .var w → w.id ≠ v.id) {b : Arg}
    (hb : ∀ w, b = .var w → w.id ≠ v.id) : (t.forward v a).next b = t.next b := by
  rw [next_forward h]
  cases b with
  | const c => rfl
  | var w => exact if_neg (hb w rfl)

theorem isEnd_forward_of_ne {b : Arg} (hb : ∀ w, b = .var w → w.id ≠ v.id) :
    (t.forward v a).IsEnd b ↔ t.IsEnd b := by
  cases b with
  | const c => simp
  | var w => simp [get?_forward, hb w rfl]

theorem iterate_next_forward (h : ∀ w, a = .var w → w.id ≠ v.id) {b : Arg} {n : Nat}
    (hb : ∀ m < n, ∀ w, t.next^[m] b = .var w → w.id ≠ v.id) :
    (t.forward v a).next^[n] b = t.next^[n] b := by
  induction n with
  | zero => rfl
  | succ n ih =>
    have hprefix := ih fun m hm => hb m (Nat.lt_succ_of_lt hm)
    rw [Function.iterate_succ_apply', Function.iterate_succ_apply', hprefix]
    exact next_forward_of_ne h (hb n (Nat.lt_succ_self n))

/-- What a chain that does not pass `v` comes to stays the same. -/
theorem resolve_forward_of_not_passes (ht : t.Grounded) (h : ∀ w, a = .var w → w.id ≠ v.id)
    {b : Arg} (hb : ¬ t.Passes b v.id) : (t.forward v a).resolve b = t.resolve b := by
  have hne : ∀ m w, t.next^[m] b = .var w → w.id ≠ v.id :=
    fun m w hm hw => hb ⟨m, w, hm, hw⟩
  have hsame (n : Nat) : (t.forward v a).next^[n] b = t.next^[n] b :=
    iterate_next_forward h fun m _ => hne m
  obtain ⟨n, hn, he⟩ := ht.ends b
  have hsize : t.size ≤ (t.forward v a).size := by
    rw [forward_of_ne h]
    exact Table.size_le_size_insert ht.distinct _ _
  rw [resolve_eq (by omega) he, ← hsame n]
  refine resolve_eq (by omega) ?_
  rw [hsame, isEnd_forward_of_ne (hne n)]
  exact he

theorem ends_forward_of_passes (ht : t.Grounded)
    (h : ∀ w, a = .var w → w.id ≠ v.id) {b : Arg} (hb : t.Passes b v.id) :
    ∃ n ≤ (t.forward v a).size, (t.forward v a).next^[n] b = a := by
  classical
  obtain ⟨w, hw, hid⟩ := Nat.find_spec hb
  have hfirst : ∀ m < Nat.find hb, ∀ w, t.next^[m] b = .var w → w.id ≠ v.id :=
    fun m hm w hm' hw' => Nat.find_min hb hm ⟨w, hm', hw'⟩
  obtain ⟨n, hn, he⟩ := ht.ends b
  have hle : Nat.find hb ≤ n := by
    by_contra hlt
    have hsame := iterate_next_of_le he (Nat.le_of_lt (Nat.lt_of_not_le hlt))
    exact hfirst n (Nat.lt_of_not_le hlt) w (hsame ▸ hw) hid
  refine ⟨Nat.find hb + 1, ?_, ?_⟩
  · -- either `v` had an entry, so that the chain went on, or it has a new one now
    rw [forward_of_ne h]
    cases hv : t.get? v with
    | none =>
      have : (Forwarding.mk (t.replacements.insert v.id a)).size = t.size + 1 :=
        Table.size_insert_of_get?_none hv a
      omega
    | some c =>
      have hlt : Nat.find hb < n := by
        refine Nat.lt_of_le_of_ne hle fun heq => ?_
        have hend : t.IsEnd (.var w) := by rw [← hw, heq]; exact he
        have : t.get? w = none := isEnd_var.mp hend
        rw [get?, hid] at this
        rw [get?, this] at hv
        cases hv
      have : t.size ≤ (Forwarding.mk (t.replacements.insert v.id a)).size :=
        Table.size_le_size_insert ht.distinct _ _
      omega
  · rw [Function.iterate_succ_apply', iterate_next_forward h hfirst, hw, next_forward h]
    exact if_pos hid

theorem isEnd_forward (ha : t.IsEnd a) (h : ∀ w, a = .var w → w.id ≠ v.id) :
    (t.forward v a).IsEnd a :=
  (isEnd_forward_of_ne h).mpr ha

theorem resolve_forward_of_passes (ht : t.Grounded) (ha : t.IsEnd a)
    (h : ∀ w, a = .var w → w.id ≠ v.id) {b : Arg} (hb : t.Passes b v.id) :
    (t.forward v a).resolve b = a := by
  obtain ⟨n, hn, he⟩ := ends_forward_of_passes ht h hb
  have hend : (t.forward v a).IsEnd ((t.forward v a).next^[n] b) := by
    rw [he]
    exact isEnd_forward ha h
  rw [resolve_eq (by omega) hend, he]

/-- Forwarding a variable to the end of another chain leaves every chain with an end. -/
theorem Grounded.forward (ht : t.Grounded) (ha : t.IsEnd a)
    (h : ∀ w, a = .var w → w.id ≠ v.id) : (t.forward v a).Grounded := by
  have hsize : t.size ≤ (t.forward v a).size := by
    rw [forward_of_ne h]
    exact Table.size_le_size_insert ht.distinct _ _
  refine ⟨?_, fun b => ?_⟩
  · rw [forward_of_ne h]
    exact Table.distinct_insert ht.distinct _ _
  · by_cases hb : t.Passes b v.id
    · obtain ⟨n, hn, he⟩ := ends_forward_of_passes ht h hb
      refine ⟨n, hn, ?_⟩
      rw [he]
      exact isEnd_forward ha h
    · have hne : ∀ m w, t.next^[m] b = .var w → w.id ≠ v.id :=
        fun m w hm hw => hb ⟨m, w, hm, hw⟩
      obtain ⟨n, hn, he⟩ := ht.ends b
      refine ⟨n, by omega, ?_⟩
      rw [iterate_next_forward h fun m _ => hne m, isEnd_forward_of_ne (hne n)]
      exact he

/--
The chains under the table with one more entry: those that do not pass `v` are what they were.
-/
theorem passes_forward_of_not_passes (h : ∀ w, a = .var w → w.id ≠ v.id) {b : Arg} {i : Nat}
    (hb : ¬ t.Passes b v.id) : (t.forward v a).Passes b i ↔ t.Passes b i := by
  have hsame (n : Nat) : (t.forward v a).next^[n] b = t.next^[n] b :=
    iterate_next_forward h fun m _ w hm hw => hb ⟨m, w, hm, hw⟩
  simp only [Passes, hsame]

/-- Behind a new entry a chain passes what it has passed before, or what the entry leads to. -/
theorem passes_of_passes_forward (ha : t.IsEnd a) (h : ∀ w, a = .var w → w.id ≠ v.id) {b : Arg}
    {i : Nat} (hb : (t.forward v a).Passes b i) :
    t.Passes b i ∨ t.Passes b v.id ∧ ∃ w, a = .var w ∧ w.id = i := by
  classical
  by_cases hv : t.Passes b v.id
  · obtain ⟨w, hw, hid⟩ := Nat.find_spec hv
    have hfirst : ∀ m < Nat.find hv, ∀ w, t.next^[m] b = .var w → w.id ≠ v.id :=
      fun m hm w hm' hw' => Nat.find_min hv hm ⟨w, hm', hw'⟩
    have hafter : (t.forward v a).next^[Nat.find hv + 1] b = a := by
      rw [Function.iterate_succ_apply', iterate_next_forward h hfirst, hw, next_forward h]
      exact if_pos hid
    obtain ⟨n, u, hn, hu⟩ := hb
    by_cases hle : n ≤ Nat.find hv
    · refine .inl ⟨n, u, ?_, hu⟩
      rw [← iterate_next_forward h fun m hm => hfirst m (by omega)]
      exact hn
    · have hend : (t.forward v a).IsEnd ((t.forward v a).next^[Nat.find hv + 1] b) := by
        rw [hafter]
        exact isEnd_forward ha h
      rw [iterate_next_of_le hend (by omega), hafter] at hn
      exact .inr ⟨hv, u, hn, hu⟩
  · exact .inl ((passes_forward_of_not_passes h hv).mp hb)

theorem passes_forward_self (ha : t.IsEnd a) (h : ∀ w, a = .var w → w.id ≠ v.id) {i : Nat}
    (hi : (t.forward v a).Passes (.var v) i) : i = v.id ∨ ∃ w, a = .var w ∧ w.id = i := by
  obtain ⟨n, u, hn, hu⟩ := hi
  cases n with
  | zero =>
    cases hn
    exact .inl hu.symm
  | succ n =>
    have hnext : (t.forward v a).next (.var v) = a := by
      rw [next_forward h]
      exact if_pos rfl
    rw [Function.iterate_succ_apply, hnext, iterate_next_of_isEnd (isEnd_forward ha h)] at hn
    exact .inr ⟨u, hn, hu⟩

end Forward

/-- The entries of a table concern numbers below `n` only. -/
structure Below (t : Forwarding) (n : Nat) : Prop where
  key : ∀ v, t.get? v ≠ none → v.id < n
  value : ∀ v w, t.get? v = some (.var w) → w.id < n

theorem Below.mono {m n : Nat} (h : t.Below m) (hmn : m ≤ n) : t.Below n :=
  ⟨fun v hv => Nat.lt_of_lt_of_le (h.key v hv) hmn,
    fun v w hv => Nat.lt_of_lt_of_le (h.value v w hv) hmn⟩

theorem Below.forward {n : Nat} (h : t.Below n) {v : Var} {a : Arg} (hv : v.id < n)
    (ha : ∀ w, a = .var w → w.id < n) : (t.forward v a).Below n := by
  refine ⟨fun u hu => ?_, fun u w hu => ?_⟩
  · rw [get?_forward] at hu
    split at hu
    · rename_i huv
      rw [huv.2]
      exact hv
    · exact h.key u hu
  · rw [get?_forward] at hu
    split at hu
    · exact ha w (Option.some.inj hu)
    · exact h.value u w hu

theorem Below.isEnd {n : Nat} (h : t.Below n) {v : Var} (hv : n ≤ v.id) : t.IsEnd (.var v) := by
  rw [isEnd_var]
  by_contra hne
  have := h.key v hne
  omega

theorem Below.passes {n : Nat} (h : t.Below n) {v : Var} (hv : v.id < n) {i : Nat}
    (hi : t.Passes (.var v) i) : i < n := by
  obtain ⟨m, w, hm, rfl⟩ := hi
  induction m generalizing v with
  | zero =>
    cases hm
    exact hv
  | succ m ih =>
    rw [Function.iterate_succ_apply, next] at hm
    cases hget : t.get? v with
    | none =>
      rw [hget] at hm
      exact ih hv hm
    | some a =>
      rw [hget] at hm
      cases a with
      | var u => exact ih (h.value v u hget) hm
      | const c =>
        rw [Option.getD_some, iterate_next_of_isEnd (isEnd_const t c)] at hm
        cases hm

section Rename

theorem distinct_rename {pairs : List (Var × Var)} (h : t.replacements.Distinct) :
    (t.rename pairs).replacements.Distinct := by
  induction pairs generalizing t with
  | nil => exact h
  | cons e pairs ih =>
    have hstep : (t.forward e.1 (.var e.2)).replacements.Distinct := by
      unfold forward
      split
      · exact h
      · exact Table.distinct_insert h _ _
    exact ih hstep

/-- What a renaming replaces is the first part of a pair, and it is replaced by the second. -/
theorem exists_of_get?_rename {pairs : List (Var × Var)} {w : Var} {a : Arg}
    (h : (t.rename pairs).get? w = some a) :
    t.get? w = some a ∨ ∃ e ∈ pairs, e.1.id = w.id ∧ a = .var e.2 ∧ e.2 ≠ e.1 := by
  induction pairs generalizing t with
  | nil => exact .inl h
  | cons e pairs ih =>
    rcases ih h with hget | ⟨e', he', hpair⟩
    · rw [get?_forward] at hget
      split at hget
      · rename_i hw
        cases hget
        refine .inr ⟨e, List.mem_cons_self .., hw.2.symm, rfl, fun hsame => hw.1 ?_⟩
        rw [hsame]
      · exact .inl hget
    · exact .inr ⟨e', List.mem_cons_of_mem _ he', hpair⟩

/-- A pair of two variables replaces the first. -/
theorem get?_rename_ne_none {pairs : List (Var × Var)} {w : Var}
    (h : t.get? w ≠ none ∨ ∃ e ∈ pairs, e.1.id = w.id ∧ e.2 ≠ e.1) :
    (t.rename pairs).get? w ≠ none := by
  induction pairs generalizing t with
  | nil => simpa [rename] using h
  | cons e pairs ih =>
    refine ih ?_
    rw [get?_forward]
    rcases h with hget | ⟨e', he', hid, hne⟩
    · left
      split
      · exact Option.some_ne_none _
      · exact hget
    · rcases List.mem_cons.mp he' with rfl | he'
      · left
        rw [if_pos ⟨fun hsame => hne (Arg.var.inj hsame), hid.symm⟩]
        exact Option.some_ne_none _
      · exact .inr ⟨e', he', hid, hne⟩

theorem grounded_of_isEnd (hdistinct : t.replacements.Distinct)
    (h : ∀ v a, t.get? v = some a → t.IsEnd a) : t.Grounded := by
  refine ⟨hdistinct, fun a => ?_⟩
  cases a with
  | const c => exact ⟨0, Nat.zero_le _, isEnd_const t c⟩
  | var v =>
    cases hget : t.get? v with
    | none => exact ⟨0, Nat.zero_le _, isEnd_var.mpr hget⟩
    | some a =>
      have hsize : 0 < t.size := by
        refine Nat.pos_of_ne_zero fun hzero => ?_
        have hempty : t.replacements.entries = [] := List.length_eq_zero_iff.mp hzero
        rw [get?, Table.get?, hempty] at hget
        cases hget
      refine ⟨1, hsize, ?_⟩
      rw [Function.iterate_one, next, hget]
      exact h v a hget

/-- Where entries lead to ends at once, a chain passes its start and its end only. -/
theorem eq_or_of_passes (h : ∀ v a, t.get? v = some a → t.IsEnd a) {v : Var} {i : Nat}
    (hi : t.Passes (.var v) i) : i = v.id ∨ ∃ w, t.get? v = some (.var w) ∧ w.id = i := by
  obtain ⟨n, w, hn, hw⟩ := hi
  cases n with
  | zero =>
    cases hn
    exact .inl hw.symm
  | succ n =>
    rw [Function.iterate_succ_apply, next] at hn
    cases hget : t.get? v with
    | none =>
      rw [hget, Option.getD_none, iterate_next_of_isEnd (isEnd_var.mpr hget)] at hn
      cases hn
      exact .inl hw.symm
    | some a =>
      rw [hget, Option.getD_some, iterate_next_of_isEnd (h v a hget)] at hn
      exact .inr ⟨w, congrArg some hn, hw⟩

end Rename

end Forwarding

end HotLoop
