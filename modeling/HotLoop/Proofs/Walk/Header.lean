import HotLoop.Optimize.Request
import HotLoop.Proofs.Execution.Machine
import HotLoop.Proofs.Walk.Step
import Mathlib.Data.List.Nodup
import Mathlib.Tactic.ByContra

/-!
# The header of an unrolled loop

The header takes over the values that the first walk ends with. A variable is taken as it is where
that makes no two variables of the header the same and hides no other input; any other value is
copied to a fresh variable in front of the header.
-/

namespace HotLoop

open Pass (reusable? extendHeader)

/--
The values `l`, the first of them at index `i`, become the variables `vs` behind those that the
header has; `cs` are the copies to be made, and fresh numbers go on from `next` to `next'`.
-/
inductive ExtendsHeader (inputs : List Var) :
    List Var → Nat → Nat → List Arg → List Var → List Operation → Nat → Prop where
  | nil {header : List Var} {i next : Nat} : ExtendsHeader inputs header i next [] [] [] next
  | reuse {header vs : List Var} {i next next' : Nat} {a : Arg} {l : List Arg}
      {cs : List Operation} {v : Var} (h : reusable? inputs header i a = some v)
      (rest : ExtendsHeader inputs (header ++ [v]) (i + 1) next l vs cs next') :
      ExtendsHeader inputs header i next (a :: l) (v :: vs) cs next'
  | copy {header vs : List Var} {i next next' : Nat} {a : Arg} {l : List Arg}
      {cs : List Operation} (h : reusable? inputs header i a = none)
      (rest : ExtendsHeader inputs (header ++ [⟨next, a.kind⟩]) (i + 1) (next + 1) l vs cs next') :
      ExtendsHeader inputs header i next (a :: l) (⟨next, a.kind⟩ :: vs)
        ({ opcode := .sameAs, args := [a], result := some ⟨next, a.kind⟩ } :: cs) next'

/-- The variables of the header for the values `endArgs`, and the copies in front of it. -/
def Pass.header (inputs : List Var) (endArgs : List Arg) : PassM Pass (List Var × List Operation) :=
  endArgs.zipIdx.foldlM (extendHeader inputs) ([], [])

theorem Pass.extendHeaders_goes_of_fresh {R : Pass → Pass → Prop} {P : Rejection → Prop}
    [Std.Refl R] [IsTrans Pass R] (hfresh : ∀ k p, Goes R P (fresh k) p) (inputs : List Var)
    (l : List (Arg × Nat)) (header : List Var × List Operation) (p : Pass) :
    Goes R P (l.foldlM (extendHeader inputs) header) p := by
  induction l generalizing p header with
  | nil => exact .pure _
  | cons a l ih =>
    rw [List.foldlM_cons]
    refine .bind ?_ fun header' q _ => ih header' q
    unfold extendHeader
    split
    · exact .pure _
    · exact .bind (hfresh _ p) fun _ _ _ => .pure _

theorem extendsHeader_of_foldlM {inputs : List Var} {l : List Arg} {p p' : Pass} {i : Nat}
    {header vars : List Var} {copies copies' : List Operation}
    (h : runFrom ((l.zipIdx i).foldlM (extendHeader inputs) (header, copies)) p =
      (.ok (vars, copies'), p')) :
    ∃ vs cs, vars = header ++ vs ∧ copies' = copies ++ cs ∧
      ExtendsHeader inputs header i p.shared.values.next l vs cs p'.shared.values.next ∧
      ∃ values, p' = { p with shared := { p.shared with values } } := by
  induction l generalizing p i header copies with
  | nil =>
    simp only [List.zipIdx_nil, List.foldlM_nil, runFrom_pure, Prod.mk.injEq,
      Except.ok.injEq] at h
    obtain ⟨⟨rfl, rfl⟩, rfl⟩ := h
    exact ⟨[], [], by simp, by simp, .nil, p.shared.values, rfl⟩
  | cons a l ih =>
    rw [List.zipIdx_cons, List.foldlM_cons, runFrom_bind_eq_ok] at h
    obtain ⟨⟨header₁, copies₁⟩, q, hstep, hrest⟩ := h
    obtain ⟨vs, cs, rfl, rfl, hext, values, rfl⟩ := ih hrest
    unfold extendHeader at hstep
    split at hstep
    · rename_i v hv
      simp only [runFrom_pure, Prod.mk.injEq, Except.ok.injEq] at hstep
      obtain ⟨⟨rfl, rfl⟩, rfl⟩ := hstep
      exact ⟨v :: vs, cs, by simp, rfl, .reuse hv hext, values, rfl⟩
    · rename_i hnone
      simp only [runFrom_bind_eq_ok, runFrom_pure, Prod.mk.injEq, Except.ok.injEq] at hstep
      obtain ⟨v, u, hfresh, ⟨rfl, rfl⟩, rfl⟩ := hstep
      obtain ⟨rfl, rfl⟩ := Pass.fresh_eq_ok hfresh
      exact ⟨_ :: vs, _ :: cs, by simp, by simp, .copy hnone hext, values, rfl⟩

theorem eq_of_reusable? {inputs header : List Var} {i : Nat} {a : Arg} {v : Var}
    (h : reusable? inputs header i a = some v) :
    a = .var v ∧ v ∉ header ∧ ∀ m u, inputs[m]? = some u → u.id = v.id → m = i := by
  unfold reusable? at h
  split at h
  · rename_i w
    split at h
    · cases h
    · rename_i hno
      cases h
      simp only [Bool.or_eq_true, List.contains_iff_mem, List.any_eq_true, beq_iff_eq,
        not_or, not_exists, not_and] at hno
      refine ⟨rfl, hno.1, fun m u hu hid => ?_⟩
      by_contra hne
      exact hno.2 u (List.mem_eraseIdx_iff_getElem?.mpr ⟨m, hne, hu⟩) hid
  · cases h

namespace ExtendsHeader

variable {inputs header vs : List Var} {i next next' : Nat} {l : List Arg} {cs : List Operation}

theorem length_eq (h : ExtendsHeader inputs header i next l vs cs next') :
    vs.length = l.length := by
  induction h with
  | nil => rfl
  | reuse _ _ ih => rw [List.length_cons, List.length_cons, ih]
  | copy _ _ ih => rw [List.length_cons, List.length_cons, ih]

theorem next_le (h : ExtendsHeader inputs header i next l vs cs next') : next ≤ next' := by
  induction h with
  | nil => exact Nat.le_refl _
  | reuse _ _ ih => exact ih
  | copy _ _ ih => omega

/-- A variable of the header is the value itself and no other input, or it is fresh. -/
theorem cases_of_getElem? (h : ExtendsHeader inputs header i next l vs cs next') {k : Nat} {v : Var}
    (hv : vs[k]? = some v) :
    (l[k]? = some (.var v) ∧ ∀ m u, inputs[m]? = some u → u.id = v.id → m = i + k) ∨
      (next ≤ v.id ∧ v.id < next') := by
  induction h generalizing k with
  | nil => cases hv
  | reuse hreuse _ ih =>
    obtain ⟨rfl, -, hinput⟩ := eq_of_reusable? hreuse
    cases k with
    | zero =>
      cases hv
      exact .inl ⟨rfl, hinput⟩
    | succ k =>
      rcases ih hv with ⟨hl, hm⟩ | hfresh
      · refine .inl ⟨hl, fun m u hu hid => ?_⟩
        have := hm m u hu hid
        omega
      · exact .inr hfresh
  | copy _ hrest ih =>
    cases k with
    | zero =>
      cases hv
      exact .inr ⟨Nat.le_refl _, hrest.next_le⟩
    | succ k =>
      rcases ih hv with ⟨hl, hm⟩ | hfresh
      · refine .inl ⟨hl, fun m u hu hid => ?_⟩
        have := hm m u hu hid
        omega
      · exact .inr ⟨by omega, hfresh.2⟩

theorem nodup_vars (h : ExtendsHeader inputs header i next l vs cs next')
    (hl : ∀ v, .var v ∈ l → v.id < next) (hheader : ∀ v ∈ header, v.id < next)
    (hnodup : header.Nodup) : (header ++ vs).Nodup := by
  induction h with
  | nil => rwa [List.append_nil]
  | @reuse header vs i next next' a l cs v hreuse _ ih =>
    obtain ⟨rfl, hnot, -⟩ := eq_of_reusable? hreuse
    rw [List.append_cons]
    refine ih (fun w hw => hl w (List.mem_cons_of_mem _ hw)) ?_ ?_
    · intro w hw
      rcases List.mem_append.mp hw with hw | hw
      · exact hheader w hw
      · rw [List.mem_singleton.mp hw]
        exact hl v (List.mem_cons_self ..)
    · exact List.nodup_append_comm.mp (List.nodup_cons.mpr ⟨hnot, hnodup⟩)
  | @copy header vs i next next' a l cs _ _ ih =>
    rw [List.append_cons]
    refine ih (fun w hw => Nat.lt_succ_of_lt (hl w (List.mem_cons_of_mem _ hw))) ?_ ?_
    · intro w hw
      rcases List.mem_append.mp hw with hw | hw
      · exact Nat.lt_succ_of_lt (hheader w hw)
      · rw [List.mem_singleton.mp hw]
        exact Nat.lt_succ_self _
    · refine List.nodup_append_comm.mp (List.nodup_cons.mpr ⟨fun hmem => ?_, hnodup⟩)
      exact Nat.lt_irrefl _ (hheader _ hmem)

theorem nodup (h : ExtendsHeader inputs header i next l vs cs next') {seen : List Var}
    {bound : Nat} (hseen : ∀ u ∈ seen, ∀ w ∈ seen, u.id = w.id → u = w)
    (hbound : ∀ u ∈ seen, u.id < bound) (hle : bound ≤ next)
    (hl : ∀ v, .var v ∈ l → v ∈ seen)
    (hheader : ∀ v ∈ header, v ∈ seen ∨ bound ≤ v.id ∧ v.id < next)
    (hnodup : (header.map (·.id)).Nodup) : ((header ++ vs).map (·.id)).Nodup := by
  induction h with
  | nil => rwa [List.append_nil]
  | @reuse header vs i next next' a l cs v hreuse _ ih =>
    obtain ⟨rfl, hnot, -⟩ := eq_of_reusable? hreuse
    have hv : v ∈ seen := hl v (List.mem_cons_self ..)
    have happend : header ++ v :: vs = header ++ [v] ++ vs := by simp
    rw [happend]
    refine ih hle (fun w hw => hl w (List.mem_cons_of_mem _ hw)) ?_ ?_
    · intro w hw
      rcases List.mem_append.mp hw with hw | hw
      · exact hheader w hw
      · rw [List.mem_singleton.mp hw]
        exact .inl hv
    · rw [List.map_append, List.map_cons, List.map_nil]
      refine List.nodup_append.mpr ⟨hnodup, List.nodup_singleton _, ?_⟩
      intro a ha b hb heq
      obtain ⟨w, hw, rfl⟩ := List.mem_map.mp ha
      have hid : w.id = v.id := heq.trans (List.mem_singleton.mp hb)
      rcases hheader w hw with hw' | hw'
      · exact hnot (hseen w hw' v hv hid ▸ hw)
      · have := hbound v hv
        omega
  | @copy header vs i next next' a l cs _ _ ih =>
    have happend : header ++ (⟨next, a.kind⟩ :: vs) = header ++ [⟨next, a.kind⟩] ++ vs := by simp
    rw [happend]
    refine ih (by omega) (fun w hw => hl w (List.mem_cons_of_mem _ hw)) ?_ ?_
    · intro w hw
      rcases List.mem_append.mp hw with hw | hw
      · rcases hheader w hw with hw | hw
        · exact .inl hw
        · exact .inr ⟨hw.1, by omega⟩
      · rw [List.mem_singleton.mp hw]
        exact .inr ⟨hle, Nat.lt_succ_self _⟩
    · rw [List.map_append, List.map_cons, List.map_nil]
      refine List.nodup_append.mpr ⟨hnodup, List.nodup_singleton _, ?_⟩
      intro b hb c hc heq
      obtain ⟨w, hw, rfl⟩ := List.mem_map.mp hb
      have hid : w.id = next := heq.trans (List.mem_singleton.mp hc)
      rcases hheader w hw with hw' | hw'
      · have := hbound w hw'
        omega
      · omega

/-- Behind the copies the variables of the header have the values that the header takes over. -/
theorem run_copies (h : ExtendsHeader inputs header i next l vs cs next') (ρ : Env)
    (hl : ∀ v, .var v ∈ l → v.id < next) :
    ∃ ρ' : Env, (∀ (σ : Type) (M : Machine σ) (memo : PureMemo) (st : σ) (rest : List Site),
        M.run memo (cs.map (⟨·, 0, []⟩) ++ rest) ρ st = M.run memo rest ρ' st) ∧
      vs.map (fun v => ρ' v.id) = l.map (·.eval ρ) ∧ ∀ j < next, ρ' j = ρ j := by
  induction h generalizing ρ with
  | nil => exact ⟨ρ, fun _ _ _ _ _ => rfl, rfl, fun _ _ => rfl⟩
  | @reuse header vs i next next' a l cs v hreuse _ ih =>
    obtain ⟨rfl, -, -⟩ := eq_of_reusable? hreuse
    obtain ⟨ρ', hrun, hvals, hold⟩ := ih ρ fun w hw => hl w (List.mem_cons_of_mem _ hw)
    refine ⟨ρ', hrun, ?_, hold⟩
    rw [List.map_cons, List.map_cons, hvals, hold v.id (hl v (List.mem_cons_self ..))]
    rfl
  | @copy header vs i next next' a l cs _ _ ih =>
    have hvar : ∀ v, .var v ∈ l → v.id < next := fun v hv => hl v (List.mem_cons_of_mem _ hv)
    obtain ⟨ρ', hrun, hvals, hold⟩ := ih (ρ.set ⟨next, a.kind⟩ (a.eval ρ))
      fun v hv => Nat.lt_succ_of_lt (hvar v hv)
    refine ⟨ρ', fun σ M memo st rest => ?_, ?_, fun j hj => ?_⟩
    · rw [← hrun]
      rfl
    · rw [List.map_cons, List.map_cons, hvals, hold next (Nat.lt_succ_self _)]
      congr 1
      · exact Env.set_self ρ ⟨next, a.kind⟩ _
      · refine List.map_congr_left fun b hb => ?_
        cases b with
        | const c => rfl
        | var w =>
          have := hvar w hb
          exact Env.set_of_ne (Nat.ne_of_lt this)
    · rw [hold j (Nat.lt_succ_of_lt hj)]
      exact Env.set_of_ne (Nat.ne_of_lt hj)

end ExtendsHeader

end HotLoop
