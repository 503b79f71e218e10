import HotLoop.Consistency
import HotLoop.Proofs.Chains
import HotLoop.Proofs.Execution.Scope

/-!
# Code in pieces

Consistent code is put together from pieces, each of which starts with what is visible behind the
one before; a label hides everything but its arguments. All variables of consistent code may be
renamed, as long as no other variable gets the number of a result.
-/

namespace HotLoop

theorem firstHidden?_eq_none {seen : List Nat} {vars : List Var} :
    firstHidden? seen vars = none ↔ ∀ v ∈ vars, v.id ∈ seen := by
  simp [firstHidden?, List.find?_eq_none]

theorem visibleAfter_eq_ok {seen seen' : List Nat} {op : Operation} :
    visibleAfter seen op = .ok seen' ↔
      (op.opcode = .label ∧ seen' = op.argVars.map (·.id)) ∨
        op.opcode ≠ .label ∧ (op.result = none ∧ seen' = seen ∨
          ∃ r, op.result = some r ∧ r.id ∉ seen ∧ seen' = r.id :: seen) := by
  unfold visibleAfter
  by_cases hlabel : op.opcode = .label
  · simp [hlabel, eq_comm]
  · cases hr : op.result with
    | none => simp [hlabel, eq_comm]
    | some r => by_cases hmem : r.id ∈ seen <;> simp [hlabel, hmem, eq_comm]

/-- Only a result that is visible already stands in the way of what comes behind. -/
theorem exists_visibleAfter {seen : List Nat} {op : Operation} :
    (∃ seen', visibleAfter seen op = .ok seen') ↔
      (op.opcode ≠ .label → ∀ r, op.result = some r → r.id ∉ seen) := by
  simp only [visibleAfter_eq_ok]
  constructor
  · rintro ⟨seen', ⟨hlabel, -⟩ | ⟨-, ⟨hnone, -⟩ | ⟨r, hr, hnew, -⟩⟩⟩ hne r' hr'
    · exact absurd hlabel hne
    · cases hnone.symm.trans hr'
    · cases hr.symm.trans hr'
      exact hnew
  · intro h
    by_cases hlabel : op.opcode = .label
    · exact ⟨_, .inl ⟨hlabel, rfl⟩⟩
    · cases hr : op.result with
      | none => exact ⟨seen, .inr ⟨hlabel, .inl ⟨rfl, rfl⟩⟩⟩
      | some r => exact ⟨r.id :: seen, .inr ⟨hlabel, .inr ⟨r, rfl, h hlabel r hr, rfl⟩⟩⟩

theorem checkOps_cons {seen seen' : List Nat} {op : Operation} {ops : List Operation}
    (hfinal : op.isFinal = true → ops = []) (huses : ∀ v ∈ op.uses, v.id ∈ seen)
    (hvisible : visibleAfter seen op = .ok seen') :
    checkOps seen (op :: ops) = checkOps seen' ops := by
  have hearly : ¬ (op.isFinal && !ops.isEmpty) = true := by
    rw [Bool.and_eq_true]
    rintro ⟨hyes, hmore⟩
    rw [hfinal hyes] at hmore
    cases hmore
  have hhidden : firstHidden? seen (op.argVars ++ op.failVars) = none :=
    firstHidden?_eq_none.mpr huses
  rw [checkOps, if_neg hearly, hhidden, hvisible]

theorem checkOps_cons_eq_ok {seen : List Nat} {op : Operation} {ops : List Operation} :
    checkOps seen (op :: ops) = .ok () ↔
      (op.isFinal = true → ops = []) ∧ (∀ v ∈ op.uses, v.id ∈ seen) ∧
        ∃ seen', visibleAfter seen op = .ok seen' ∧ checkOps seen' ops = .ok () := by
  constructor
  · intro h
    rw [checkOps] at h
    split at h
    · cases h
    · rename_i hearly
      split at h
      · cases h
      · rename_i hhidden
        split at h
        · cases h
        · rename_i seen' hvisible
          exact ⟨fun hfinal => by simpa [hfinal] using hearly, firstHidden?_eq_none.mp hhidden,
            seen', hvisible, h⟩
  · rintro ⟨hfinal, huses, seen', hvisible, hrest⟩
    rw [checkOps_cons hfinal huses hvisible]
    exact hrest

theorem checkBranch_eq_ok {seen : List Nat} {ops : List Operation} :
    checkBranch seen ops = .ok () ↔
      (∃ last, ops.getLast? = some last ∧ last.isFinal = true) ∧ checkOps seen ops = .ok () := by
  unfold checkBranch
  cases ops.getLast? with
  | none => simp
  | some last => by_cases hfinal : last.isFinal = true <;> simp [hfinal]

/--
The operations can stand where the numbers `seen` are visible, and have others behind them. What is
visible there is `seen'`.
-/
inductive Flows : List Nat → List Operation → List Nat → Prop where
  | nil (seen : List Nat) : Flows seen [] seen
  | cons {seen seen' seen'' : List Nat} {op : Operation} {ops : List Operation}
      (hfinal : op.isFinal = false) (huses : ∀ v ∈ op.uses, v.id ∈ seen)
      (hvisible : visibleAfter seen op = .ok seen') (rest : Flows seen' ops seen'') :
      Flows seen (op :: ops) seen''

namespace Flows

variable {seen seen' seen'' : List Nat} {op : Operation} {ops ops' : List Operation}

theorem append (h : Flows seen ops seen') (h' : Flows seen' ops' seen'') :
    Flows seen (ops ++ ops') seen'' := by
  induction h with
  | nil => exact h'
  | cons hfinal huses hvisible _ ih => exact .cons hfinal huses hvisible (ih h')

theorem single (hfinal : op.isFinal = false) (huses : ∀ v ∈ op.uses, v.id ∈ seen)
    (hvisible : visibleAfter seen op = .ok seen') : Flows seen [op] seen' :=
  .cons hfinal huses hvisible (.nil seen')

theorem label {vars : List Var} (descr : Descr) (h : ∀ v ∈ vars, v.id ∈ seen) :
    Flows seen [.label vars descr] (vars.map (·.id)) := by
  refine .single rfl (fun v hv => h v ?_) ?_
  · rcases List.mem_append.mp hv with hv | hv
    · rwa [Operation.argVars_label] at hv
    · simp [Operation.failVars, Operation.failSlots, Operation.label] at hv
  · rw [visibleAfter_eq_ok]
    exact .inl ⟨rfl, by rw [Operation.argVars_label]⟩

theorem checkOps_append (h : Flows seen ops seen') (ops' : List Operation) :
    checkOps seen (ops ++ ops') = checkOps seen' ops' := by
  induction h with
  | nil => rfl
  | cons hfinal huses hvisible _ ih =>
    rw [List.cons_append, checkOps_cons (fun h => by simp [hfinal] at h) huses hvisible]
    exact ih

/-- Pieces in front of consistent code are consistent with it. -/
theorem checkBranch_append (h : Flows seen ops seen') (hbranch : checkBranch seen' ops' = .ok ()) :
    checkBranch seen (ops ++ ops') = .ok () := by
  obtain ⟨⟨last, hlast, hfinal⟩, hcheck⟩ := checkBranch_eq_ok.mp hbranch
  refine checkBranch_eq_ok.mpr ⟨⟨last, ?_, hfinal⟩, h.checkOps_append ops' ▸ hcheck⟩
  rw [List.getLast?_append, hlast, Option.some_or]

end Flows

/-- An operation that ends the trace is consistent by itself. -/
theorem checkBranch_singleton {seen : List Nat} {last : Operation} (hfinal : last.isFinal = true)
    (huses : ∀ v ∈ last.uses, v.id ∈ seen) (hresult : ∀ r, last.result = some r → r.id ∉ seen) :
    checkBranch seen [last] = .ok () := by
  obtain ⟨seen', hvisible⟩ := exists_visibleAfter.mpr fun _ => hresult
  simp only [checkBranch, List.getLast?_singleton, hfinal, if_true]
  rw [checkOps_cons (fun _ => rfl) huses hvisible]
  rfl

private theorem checkInputs_from {inputs : List Var} {seen : List Nat}
    (hnodup : (inputs.map (·.id)).Nodup) (hnew : ∀ v ∈ inputs, v.id ∉ seen) :
    ∃ seen', checkInputs seen inputs = .ok seen' ∧
      ∀ i, i ∈ seen' ↔ i ∈ inputs.map (·.id) ∨ i ∈ seen := by
  induction inputs generalizing seen with
  | nil => exact ⟨seen, rfl, by simp⟩
  | cons v inputs ih =>
    obtain ⟨hv, hnodup⟩ := List.nodup_cons.mp hnodup
    have hnew' : ∀ w ∈ inputs, w.id ∉ v.id :: seen := by
      intro w hw hmem
      rcases List.mem_cons.mp hmem with heq | hmem
      · exact hv (List.mem_map.mpr ⟨w, hw, heq⟩)
      · exact hnew w (List.mem_cons_of_mem _ hw) hmem
    obtain ⟨seen', hcheck, hmem⟩ := ih hnodup hnew'
    refine ⟨seen', ?_, fun i => ?_⟩
    · rw [checkInputs, if_neg (by simpa using hnew v (List.mem_cons_self ..))]
      exact hcheck
    · rw [hmem, List.map_cons, List.mem_cons, List.mem_cons, or_assoc]
      exact or_left_comm

/-- Distinct inputs are all visible behind them, and nothing else is. -/
theorem checkInputs_eq_ok {inputs : List Var} (hnodup : (inputs.map (·.id)).Nodup) :
    ∃ seen, checkInputs [] inputs = .ok seen ∧ ∀ i, i ∈ seen ↔ i ∈ inputs.map (·.id) := by
  obtain ⟨seen, hcheck, hmem⟩ := checkInputs_from hnodup fun _ _ => List.not_mem_nil
  exact ⟨seen, hcheck, fun i => by rw [hmem, or_iff_left List.not_mem_nil]⟩

theorem nodup_of_checkInputs {inputs : List Var} {seen seen' : List Nat}
    (h : checkInputs seen inputs = .ok seen') :
    (inputs.map (·.id)).Nodup ∧ ∀ v ∈ inputs, v.id ∉ seen := by
  induction inputs generalizing seen with
  | nil => exact ⟨List.nodup_nil, fun _ hv => by cases hv⟩
  | cons v inputs ih =>
    rw [checkInputs] at h
    split at h
    · cases h
    · rename_i hnew
      obtain ⟨hnodup, hapart⟩ := ih h
      refine ⟨List.nodup_cons.mpr ⟨fun hmem => ?_, hnodup⟩, fun w hw => ?_⟩
      · obtain ⟨w, hw, hid⟩ := List.mem_map.mp hmem
        exact hapart w hw (hid ▸ List.mem_cons_self ..)
      · rcases List.mem_cons.mp hw with rfl | hw
        · simpa using hnew
        · exact fun hmem => hapart w hw (List.mem_cons_of_mem _ hmem)

section Renaming

theorem Forwarding.failVars_apply_eq_nil {σ : Forwarding} {op : Operation}
    (h : op.failVars = []) :
    (σ.apply op).failVars = [] := by
  simp only [Operation.failVars, Operation.failSlots, apply] at h ⊢
  cases hfail : op.failArgs with
  | none => rfl
  | some slots =>
    rw [hfail] at h
    simp only [Option.getD_some, List.filterMap_eq_nil_iff, Option.map_some, id] at h ⊢
    intro slot hslot
    obtain ⟨o, ho, rfl⟩ := List.mem_map.mp hslot
    rw [h o ho]
    rfl

/-- The table replaces every variable by a variable, with numbers as given by `f`. -/
def Forwarding.Renames (t : Forwarding) (f : Nat → Nat) : Prop :=
  ∀ v : Var, ∃ w, t.resolve (.var v) = .var w ∧ w.id = f v.id

variable {t : Forwarding} {f : Nat → Nat} {op : Operation}

theorem Forwarding.Renames.argVars_apply (h : t.Renames f) :
    (t.apply op).argVars.map (·.id) = (op.argVars.map (·.id)).map f := by
  simp only [Operation.argVars, apply]
  induction op.args with
  | nil => rfl
  | cons a args ih =>
    cases a with
    | const c => simpa only [List.map_cons, resolve_const, List.filterMap_cons, Arg.var?] using ih
    | var v =>
      obtain ⟨w, hw, hid⟩ := h v
      simp only [List.map_cons, hw, List.filterMap_cons, Arg.var?, hid, ih]

theorem Forwarding.Renames.failVars_apply (h : t.Renames f) :
    (t.apply op).failVars.map (·.id) = (op.failVars.map (·.id)).map f := by
  simp only [Operation.failVars, Operation.failSlots, apply]
  cases op.failArgs with
  | none => rfl
  | some slots =>
    simp only [Option.map_some, Option.getD_some]
    induction slots with
    | nil => rfl
    | cons slot slots ih =>
      cases slot with
      | none => simpa using ih
      | some v =>
        obtain ⟨w, hw, hid⟩ := h v
        have hvar : t.resolveVar v = w := by rw [resolveVar, hw]; rfl
        simpa [hvar, hid] using ih

theorem Forwarding.Renames.mem_uses_apply (h : t.Renames f) {v : Var}
    (hv : v ∈ (t.apply op).uses) : ∃ u ∈ op.uses, f u.id = v.id := by
  have hmem : v.id ∈ (op.argVars.map (·.id)).map f ∨ v.id ∈ (op.failVars.map (·.id)).map f := by
    rw [← h.argVars_apply, ← h.failVars_apply]
    exact (List.mem_append.mp hv).imp List.mem_map_of_mem List.mem_map_of_mem
  rw [List.map_map, List.map_map, List.mem_map, List.mem_map] at hmem
  rcases hmem with ⟨u, hu, hid⟩ | ⟨u, hu, hid⟩
  · exact ⟨u, List.mem_append_left _ hu, hid⟩
  · exact ⟨u, List.mem_append_right _ hu, hid⟩

/-- No other variable is renamed to the variable that the operation defines. -/
def SparesResult (f : Nat → Nat) (op : Operation) : Prop :=
  ∀ r, op.result = some r → ∀ i, f i = r.id ↔ i = r.id

/--
Renamed code is consistent where the renamed variables are visible, even if there are others that it
does not define.
-/
theorem checkOps_rename (h : t.Renames f) {ops : List Operation} {seen seen' : List Nat}
    (hcheck : checkOps seen ops = .ok ()) (hseen : ∀ i ∈ seen, f i ∈ seen')
    (hspares : ∀ op ∈ ops, SparesResult f op)
    (hresults : ∀ op ∈ ops, ∀ r, op.result = some r → r.id ∈ seen' → r.id ∈ seen) :
    checkOps seen' (ops.map t.apply) = .ok () := by
  induction ops generalizing seen seen' with
  | nil => rfl
  | cons op ops ih =>
    obtain ⟨hfinal, huses, behind, hvisible, hbehind⟩ := checkOps_cons_eq_ok.mp hcheck
    have huses' : ∀ v ∈ (t.apply op).uses, v.id ∈ seen' := by
      intro v hv
      obtain ⟨u, hu, hid⟩ := h.mem_uses_apply hv
      exact hid ▸ hseen u.id (huses u hu)
    have htail : ∀ o ∈ ops, SparesResult f o := fun o ho =>
      hspares o (List.mem_cons_of_mem _ ho)
    -- what is visible behind the renamed operation
    obtain ⟨behind', hvisible', hrest⟩ : ∃ behind', visibleAfter seen' (t.apply op) =
        .ok behind' ∧ checkOps behind' (ops.map t.apply) = .ok () := by
      rcases visibleAfter_eq_ok.mp hvisible with ⟨hlabel, rfl⟩ | ⟨hlabel, hresult⟩
      · refine ⟨_, visibleAfter_eq_ok.mpr (.inl ⟨hlabel, rfl⟩), ih hbehind ?_ htail ?_⟩
        · intro i hi
          rw [h.argVars_apply]
          exact List.mem_map_of_mem hi
        · intro o ho r hr hmem
          rw [h.argVars_apply] at hmem
          obtain ⟨i, hi, hid⟩ := List.mem_map.mp hmem
          rwa [(htail o ho r hr i).mp hid] at hi
      · rcases hresult with ⟨hnone, rfl⟩ | ⟨r, hr, hnew, rfl⟩
        · exact ⟨seen', visibleAfter_eq_ok.mpr (.inr ⟨hlabel, .inl ⟨hnone, rfl⟩⟩),
            ih hbehind hseen htail fun o ho => hresults o (List.mem_cons_of_mem _ ho)⟩
        · have hnew' : r.id ∉ seen' := fun hmem =>
            hnew (hresults op (List.mem_cons_self ..) r hr hmem)
          refine ⟨r.id :: seen', visibleAfter_eq_ok.mpr (.inr ⟨hlabel, .inr ⟨r, hr, hnew', rfl⟩⟩),
            ih hbehind ?_ htail ?_⟩
          · intro i hi
            rcases List.mem_cons.mp hi with rfl | hi
            · rw [(hspares op (List.mem_cons_self ..) r hr r.id).mpr rfl]
              exact List.mem_cons_self ..
            · exact List.mem_cons_of_mem _ (hseen i hi)
          · intro o ho r' hr' hmem
            rcases List.mem_cons.mp hmem with heq | hmem
            · rw [heq]
              exact List.mem_cons_self ..
            · exact List.mem_cons_of_mem _
                (hresults o (List.mem_cons_of_mem _ ho) r' hr' hmem)
    rw [List.map_cons, checkOps_cons (fun hyes => ?_) huses' hvisible']
    · exact hrest
    · rw [hfinal hyes]
      rfl

theorem checkBranch_rename (h : t.Renames f) {ops : List Operation} {seen seen' : List Nat}
    (hcheck : checkBranch seen ops = .ok ()) (hseen : ∀ i ∈ seen, f i ∈ seen')
    (hspares : ∀ op ∈ ops, SparesResult f op)
    (hresults : ∀ op ∈ ops, ∀ r, op.result = some r → r.id ∈ seen' → r.id ∈ seen) :
    checkBranch seen' (ops.map t.apply) = .ok () := by
  obtain ⟨⟨last, hlast, hfinal⟩, hcheck⟩ := checkBranch_eq_ok.mp hcheck
  refine checkBranch_eq_ok.mpr ⟨⟨t.apply last, ?_, hfinal⟩, ?_⟩
  · rw [List.getLast?_map, hlast, Option.map_some]
  · exact checkOps_rename h hcheck hseen hspares hresults

theorem checkBranch_congr {ops : List Operation} {seen seen' : List Nat}
    (h : ∀ i, i ∈ seen ↔ i ∈ seen') (hcheck : checkBranch seen ops = .ok ()) :
    checkBranch seen' ops = .ok () := by
  have hnone : Forwarding.empty.Renames id := fun v => ⟨v, Forwarding.resolve_of_get?_none rfl, rfl⟩
  have hsame := checkBranch_rename hnone hcheck (fun i hi => (h i).mp hi)
    (fun _ _ _ _ _ => Iff.rfl) fun _ _ r _ hr => (h r.id).mpr hr
  have hops : ops.map Forwarding.empty.apply = ops :=
    List.map_id'' (fun op => Forwarding.apply_of_isEmpty rfl op) ops
  rwa [hops] at hsame

/-- Consistent code has distinct inputs, and is consistent behind them. -/
theorem checkCode_eq_ok {inputs : List Var} {ops : List Operation} :
    checkCode inputs ops = .ok () ↔
      (inputs.map (·.id)).Nodup ∧ checkBranch (inputs.map (·.id)) ops = .ok () := by
  constructor
  · intro h
    rw [checkCode] at h
    split at h
    · cases h
    · rename_i seen hinputs
      have hnodup := (nodup_of_checkInputs hinputs).1
      obtain ⟨seen', hinputs', hseen'⟩ := checkInputs_eq_ok hnodup
      cases hinputs.symm.trans hinputs'
      exact ⟨hnodup, checkBranch_congr hseen' h⟩
  · rintro ⟨hnodup, hbranch⟩
    obtain ⟨seen, hinputs, hseen⟩ := checkInputs_eq_ok hnodup
    rw [checkCode, hinputs]
    exact checkBranch_congr (fun i => (hseen i).symm) hbranch

theorem Flows.map_apply (h : t.Renames f) {ops : List Operation} {seen seen' : List Nat}
    (hflows : Flows seen ops seen') (hseen : ∀ i ∈ seen, f i = i)
    (hresults : ∀ op ∈ ops, ∀ r, op.result = some r → f r.id = r.id) :
    Flows seen (ops.map t.apply) seen' := by
  induction hflows with
  | nil seen => exact .nil seen
  | @cons seen behind seen' op ops hfinal huses hvisible _ ih =>
    have htail : ∀ o ∈ ops, ∀ r, o.result = some r → f r.id = r.id := fun o ho =>
      hresults o (List.mem_cons_of_mem _ ho)
    have huses' : ∀ v ∈ (t.apply op).uses, v.id ∈ seen := by
      intro v hv
      obtain ⟨u, hu, hid⟩ := h.mem_uses_apply hv
      exact hid ▸ (hseen u.id (huses u hu)).symm ▸ huses u hu
    have hvisible' : visibleAfter seen (t.apply op) = .ok behind := by
      rw [visibleAfter_eq_ok, h.argVars_apply]
      refine (visibleAfter_eq_ok.mp hvisible).imp_left fun ⟨hlabel, hbehind⟩ => ⟨hlabel, ?_⟩
      rw [hbehind, List.map_map]
      exact List.map_congr_left fun v hv =>
        (hseen v.id (huses v (List.mem_append_left _ hv))).symm
    refine .cons hfinal huses' hvisible' (ih (fun i hi => ?_) htail)
    rcases visibleAfter_eq_ok.mp hvisible with ⟨-, rfl⟩ | ⟨-, ⟨-, rfl⟩ | ⟨r, hr, -, rfl⟩⟩
    · obtain ⟨v, hv, rfl⟩ := List.mem_map.mp hi
      exact hseen v.id (huses v (List.mem_append_left _ hv))
    · exact hseen i hi
    · rcases List.mem_cons.mp hi with rfl | hi
      · exact hresults op (List.mem_cons_self ..) r hr
      · exact hseen i hi

end Renaming

end HotLoop
