import HotLoop.Proofs.Consistency.Flow
import HotLoop.Proofs.Execution.Bindings
import HotLoop.Trace

/-!
# What the consistency check decides

The check walks over the code once and keeps a set of what is visible, which labels replace. What
it decides can be said of each place in the code by itself: visible are the arguments of the last
label in front of it, and the results since. An execution that comes to a place, by however many
jumps back, has bound exactly what is visible there.
-/

namespace HotLoop

def NoLabel (ops : List Operation) (j i : Nat) : Prop :=
  ∀ k op, j ≤ k → k < i → ops[k]? = some op → op.opcode ≠ .label

/--
The number is visible at index `i`: as an argument of the nearest label in front, as an input if
there is none, or as a result since.
-/
inductive Visible (inputs : List Var) (ops : List Operation) (i : Nat) : Nat → Prop where
  | input {v : Var} (hv : v ∈ inputs) (hno : NoLabel ops 0 i) : Visible inputs ops i v.id
  | argument {j : Nat} {op : Operation} {v : Var} (hj : j < i) (hop : ops[j]? = some op)
      (hlabel : op.opcode = .label) (hv : v ∈ op.argVars) (hno : NoLabel ops (j + 1) i) :
      Visible inputs ops i v.id
  | result {j : Nat} {op : Operation} {r : Var} (hj : j < i) (hop : ops[j]? = some op)
      (hlabel : op.opcode ≠ .label) (hr : op.result = some r) (hno : NoLabel ops (j + 1) i) :
      Visible inputs ops i r.id

/-- The operation can stand at index `i` of consistent code. -/
structure Stands (inputs : List Var) (ops : List Operation) (i : Nat) (op : Operation) : Prop where
  last : op.isFinal = true → i + 1 = ops.length
  uses : ∀ v ∈ op.uses, Visible inputs ops i v.id
  fresh : op.opcode ≠ .label → ∀ r, op.result = some r → ¬ Visible inputs ops i r.id

/-- What the consistency check is there to find out. -/
structure Trace.IsConsistent (t : Trace) : Prop where
  distinct : (t.inputs.map (·.id)).Nodup
  ends : ∃ last, t.operations.getLast? = some last ∧ last.isFinal = true
  stands : ∀ i op, t.operations[i]? = some op → Stands t.inputs t.operations i op

variable {inputs : List Var} {ops : List Operation} {i x : Nat} {op : Operation}

section Visibility

theorem NoLabel.mono {j i' : Nat} (h : NoLabel ops j i') (hle : i ≤ i') : NoLabel ops j i :=
  fun k op hj hk => h k op hj (Nat.lt_of_lt_of_le hk hle)

theorem noLabel_self : NoLabel ops i i :=
  fun _ _ hj hk => absurd hk (Nat.not_lt_of_le hj)

theorem NoLabel.succ {j : Nat} (h : NoLabel ops j i) (hop : ops[i]? = some op)
    (hlabel : op.opcode ≠ .label) : NoLabel ops j (i + 1) := by
  intro k o hj hk ho
  rcases Nat.lt_succ_iff_lt_or_eq.mp hk with hk | rfl
  · exact h k o hj hk ho
  · cases hop.symm.trans ho
    exact hlabel

theorem NoLabel.not_succ {j : Nat} (hji : j ≤ i) (hop : ops[i]? = some op)
    (hlabel : op.opcode = .label) : ¬ NoLabel ops j (i + 1) :=
  fun h => h i op hji (Nat.lt_succ_self i) hop hlabel

theorem visible_zero : Visible inputs ops 0 x ↔ ∃ v ∈ inputs, v.id = x := by
  constructor
  · rintro (⟨hv, -⟩ | ⟨hj, -⟩ | ⟨hj, -⟩)
    · exact ⟨_, hv, rfl⟩
    · cases hj
    · cases hj
  · rintro ⟨v, hv, rfl⟩
    exact .input hv noLabel_self

theorem visible_succ_of_label (hop : ops[i]? = some op) (hlabel : op.opcode = .label) :
    Visible inputs ops (i + 1) x ↔ ∃ v ∈ op.argVars, v.id = x := by
  constructor
  · rintro (⟨-, hno⟩ | ⟨hj, ho, -, hv, hno⟩ | ⟨hj, ho, hne, -, hno⟩)
    · exact absurd hno (NoLabel.not_succ (Nat.zero_le _) hop hlabel)
    · rcases Nat.lt_succ_iff_lt_or_eq.mp hj with hj | rfl
      · exact absurd hno (NoLabel.not_succ hj hop hlabel)
      · cases hop.symm.trans ho
        exact ⟨_, hv, rfl⟩
    · rcases Nat.lt_succ_iff_lt_or_eq.mp hj with hj | rfl
      · exact absurd hno (NoLabel.not_succ hj hop hlabel)
      · cases hop.symm.trans ho
        exact absurd hlabel hne
  · rintro ⟨v, hv, rfl⟩
    exact .argument (Nat.lt_succ_self i) hop hlabel hv noLabel_self

theorem visible_succ_of_ne_label (hop : ops[i]? = some op) (hlabel : op.opcode ≠ .label) :
    Visible inputs ops (i + 1) x ↔
      Visible inputs ops i x ∨ ∃ r, op.result = some r ∧ r.id = x := by
  constructor
  · rintro (⟨hv, hno⟩ | ⟨hj, ho, hlabel', hv, hno⟩ | ⟨hj, ho, hne, hr, hno⟩)
    · exact .inl (.input hv (hno.mono (Nat.le_succ i)))
    · rcases Nat.lt_succ_iff_lt_or_eq.mp hj with hj | rfl
      · exact .inl (.argument hj ho hlabel' hv (hno.mono (Nat.le_succ i)))
      · cases hop.symm.trans ho
        exact absurd hlabel' hlabel
    · rcases Nat.lt_succ_iff_lt_or_eq.mp hj with hj | rfl
      · exact .inl (.result hj ho hne hr (hno.mono (Nat.le_succ i)))
      · cases hop.symm.trans ho
        exact .inr ⟨_, hr, rfl⟩
  · rintro ((⟨hv, hno⟩ | ⟨hj, ho, hlabel', hv, hno⟩ | ⟨hj, ho, hne, hr, hno⟩) | ⟨r, hr, rfl⟩)
    · exact .input hv (hno.succ hop hlabel)
    · exact .argument (Nat.lt_succ_of_lt hj) ho hlabel' hv (hno.succ hop hlabel)
    · exact .result (Nat.lt_succ_of_lt hj) ho hne hr (hno.succ hop hlabel)
    · exact .result (Nat.lt_succ_self i) hop hlabel hr noLabel_self

end Visibility

section Exactness

theorem mem_visibleAfter {seen seen' : List Nat} (hop : ops[i]? = some op)
    (hseen : ∀ x, x ∈ seen ↔ Visible inputs ops i x) (h : visibleAfter seen op = .ok seen')
    (x : Nat) : x ∈ seen' ↔ Visible inputs ops (i + 1) x := by
  rcases visibleAfter_eq_ok.mp h with ⟨hlabel, rfl⟩ | ⟨hlabel, ⟨hnone, rfl⟩ | ⟨r, hr, -, rfl⟩⟩
  · rw [visible_succ_of_label hop hlabel]
    exact List.mem_map
  · rw [visible_succ_of_ne_label hop hlabel, hseen, hnone]
    simp
  · rw [visible_succ_of_ne_label hop hlabel, List.mem_cons, hseen, hr, or_comm]
    simp [eq_comm]

theorem checkOps_eq_ok {rest : List Operation} {seen : List Nat} (hrest : ops.drop i = rest)
    (hseen : ∀ x, x ∈ seen ↔ Visible inputs ops i x) :
    checkOps seen rest = .ok () ↔
      ∀ j op, i ≤ j → ops[j]? = some op → Stands inputs ops j op := by
  induction rest generalizing i seen with
  | nil =>
    refine ⟨fun _ j op hj hop => ?_, fun _ => rfl⟩
    have hend : ops.length ≤ i := List.drop_eq_nil_iff.mp hrest
    rw [List.getElem?_eq_none (Nat.le_trans hend hj)] at hop
    cases hop
  | cons op rest ih =>
    have hop : ops[i]? = some op := by rw [← List.head?_drop, hrest]; rfl
    have htail : ops.drop (i + 1) = rest := by rw [← List.tail_drop, hrest]; rfl
    have hlast : rest = [] ↔ i + 1 = ops.length := by
      have hlen := congrArg List.length hrest
      rw [List.length_drop, List.length_cons] at hlen
      rw [← List.length_eq_zero_iff]
      omega
    rw [checkOps_cons_eq_ok]
    constructor
    · rintro ⟨hfinal, huses, seen', hvisible, hcheck⟩ j o hij ho
      rcases Nat.eq_or_lt_of_le hij with rfl | hlt
      · cases hop.symm.trans ho
        exact ⟨fun h => hlast.mp (hfinal h), fun v hv => (hseen _).mp (huses v hv),
          fun hne r hr hmem =>
            exists_visibleAfter.mp ⟨seen', hvisible⟩ hne r hr ((hseen _).mpr hmem)⟩
      · exact (ih htail (mem_visibleAfter hop hseen hvisible)).mp hcheck j o hlt ho
    · intro h
      have hhere := h i op (Nat.le_refl i) hop
      obtain ⟨seen', hvisible⟩ := exists_visibleAfter.mpr fun hne r hr hmem =>
        hhere.fresh hne r hr ((hseen _).mp hmem)
      exact ⟨fun hfinal => hlast.mpr (hhere.last hfinal),
        fun v hv => (hseen _).mpr (hhere.uses v hv), seen', hvisible,
        (ih htail (mem_visibleAfter hop hseen hvisible)).mpr
          fun j o hj => h j o (Nat.le_of_succ_le hj)⟩

theorem Trace.check_eq_ok {t : Trace} : t.check = .ok () ↔ t.IsConsistent := by
  have hops : checkOps (t.inputs.map (·.id)) t.operations = .ok () ↔
      ∀ i op, t.operations[i]? = some op → Stands t.inputs t.operations i op := by
    refine (checkOps_eq_ok List.drop_zero fun x => List.mem_map.trans visible_zero.symm).trans ?_
    exact ⟨fun h i op => h i op (Nat.zero_le i), fun h i op _ => h i op⟩
  rw [Trace.check, checkCode_eq_ok, checkBranch_eq_ok, hops]
  exact ⟨fun ⟨hdistinct, hends, hstands⟩ => ⟨hdistinct, hends, hstands⟩,
    fun h => ⟨h.distinct, h.ends, h.stands⟩⟩

end Exactness

section Safety

variable {σ : Type} {M : Machine σ} {memo : PureMemo} {m m' : RunState σ}

theorem OpCode.ne_label_of_isStop {op : OpCode} (h : op.isStop = false) : op ≠ .label := by
  rintro rfl
  cases h

theorem OpCode.isFinal_of_isStop {op : OpCode} (h : op.isStop = false) : op.isFinal = false := by
  rw [isStop, Bool.or_eq_false_iff] at h
  exact h.1

theorem binds_iff_of_label {xs : List Value} (hop : ops[i]? = some op)
    (hlabel : op.opcode = .label) (hlength : xs.length = op.args.length) :
    (PartialEnv.ofArgs op.args xs).Binds x ↔ Visible inputs ops (i + 1) x := by
  rw [PartialEnv.binds_ofArgs hlength, visible_succ_of_label hop hlabel]
  simp only [Operation.argVars, Arg.mem_filterMap_var?_iff]

theorem Machine.Moves.binds_iff (h : M.Moves memo ops m m')
    (hbinds : ∀ x, m.values.Binds x ↔ Visible inputs ops m.index x) (x : Nat) :
    m'.values.Binds x ↔ Visible inputs ops m'.index x := by
  cases h with
  | pass hop hstop hread hcompute =>
    rw [PartialEnv.binds_assign, hbinds,
      visible_succ_of_ne_label hop (OpCode.ne_label_of_isStop hstop)]
  | label hop hlabel hread =>
    exact binds_iff_of_label hop hlabel (PartialEnv.length_of_mapM_read hread)
  | jump hop hjump hread htarget hlabel hlength => exact binds_iff_of_label htarget hlabel hlength

theorem Machine.Arrives.binds_iff (h : M.Arrives memo inputs ops m) (x : Nat) :
    m.values.Binds x ↔ Visible inputs ops m.index x := by
  induction h generalizing x with
  | start st hlength =>
    rw [PartialEnv.binds_ofArgs (by rw [hlength, List.length_map]), visible_zero]
    simp
  | enter st htarget hlabel hlength => exact binds_iff_of_label htarget hlabel hlength
  | move _ hmoves ih => exact hmoves.binds_iff ih x

theorem Trace.IsConsistent.exists_next {t : Trace} (h : t.IsConsistent)
    (hop : t.operations[i]? = some op) (hnot : op.isFinal = false) :
    ∃ op', t.operations[i + 1]? = some op' := by
  obtain ⟨last, hlast, hfinal⟩ := h.ends
  by_contra hnone
  have hend : t.operations.length ≤ i + 1 := Nat.le_of_not_lt fun hlt =>
    hnone ⟨_, List.getElem?_eq_getElem hlt⟩
  have hlt : i < t.operations.length := (List.getElem?_eq_some_iff.mp hop).1
  have heq : t.operations.length - 1 = i := by omega
  rw [List.getLast?_eq_getElem?, heq, hop] at hlast
  cases hlast
  rw [hnot] at hfinal
  cases hfinal

theorem Trace.IsConsistent.exists_operation {t : Trace} (h : t.IsConsistent)
    (harrives : M.Arrives memo t.inputs t.operations m) :
    ∃ op, t.operations[m.index]? = some op := by
  have hbehind {j : Nat} {label : Operation} (hop : t.operations[j]? = some label)
      (hlabel : label.opcode = .label) : ∃ op, t.operations[j + 1]? = some op :=
    h.exists_next hop (by rw [Operation.isFinal, hlabel]; rfl)
  induction harrives with
  | start st hlength =>
    obtain ⟨last, hlast, -⟩ := h.ends
    have hne : t.operations ≠ [] := by
      rintro hnil
      rw [hnil] at hlast
      cases hlast
    exact ⟨_, List.getElem?_eq_getElem (List.length_pos_iff.mpr hne)⟩
  | enter st htarget hlabel hlength => exact hbehind htarget hlabel
  | move _ hmoves _ =>
    cases hmoves with
    | pass hop hstop hread hcompute => exact h.exists_next hop (OpCode.isFinal_of_isStop hstop)
    | label hop hlabel hread => exact hbehind hop hlabel
    | jump hop hjump hread htarget hlabel hlength => exact hbehind htarget hlabel

/--
The check accepts exactly the consistent traces. An execution of an accepted trace, however often it
goes back to a label, is always at an operation, and all variables that it reads have a value.
-/
theorem Trace.check_exact (t : Trace) :
    (t.check = .ok () ↔ t.IsConsistent) ∧
      (t.check = .ok () → ∀ {σ : Type} (M : Machine σ) (memo : PureMemo) (m : RunState σ),
        M.Arrives memo t.inputs t.operations m →
          ∃ op, t.operations[m.index]? = some op ∧ ∀ v ∈ op.uses, m.values.Binds v.id) := by
  refine ⟨check_eq_ok, fun hcheck σ M memo m harrives => ?_⟩
  have hconsistent := check_eq_ok.mp hcheck
  obtain ⟨op, hop⟩ := hconsistent.exists_operation harrives
  exact ⟨op, hop, fun v hv =>
    (harrives.binds_iff v.id).mpr ((hconsistent.stands _ op hop).uses v hv)⟩

/-- A loop that counts down: behind its label only the count is visible, and `i0` is defined anew. -/
theorem Trace.check_exact_countdown :
    let i : Var := ⟨0, .int⟩
    let n : Var := ⟨1, .int⟩
    let add : Operation := { opcode := .intAdd, args := [.var i, .int 1], result := some n }
    let label : Operation := .label [n] (.cell ⟨0, 0⟩)
    let sub : Operation := { opcode := .intSub, args := [.var n, .int 1], result := some i }
    let guard : Operation :=
      { opcode := .guardTrue, args := [.var i], failArgs := some [some n, none] }
    let jump : Operation := .jump [.var i] (.cell ⟨0, 0⟩)
    let loop : Trace :=
      { name := "countdown", inputs := [i], operations := [add, label, sub, guard, jump] }
    let M : Machine Unit :=
      { valid := true
        arith := fun _ _ => .void
        guard := fun _ _ _ => none
        perform := fun _ _ _ st => (.void, st) }
    (loop.check = .ok () ∧ loop.IsConsistent) ∧
      -- from 7 it comes back to the label with 7 and counts down once more
      (∃ m, M.Arrives .empty loop.inputs loop.operations m ∧ m.index = 3 ∧
        m.values 0 = some (.int 6)) ∧
      ∀ m, M.Arrives .empty loop.inputs loop.operations m →
        ∃ op, loop.operations[m.index]? = some op ∧ ∀ v ∈ op.uses, m.values.Binds v.id := by
  intro i n add label sub guard jump loop M
  have hcheck : loop.check = .ok () := by rfl
  obtain ⟨hexact, hsafe⟩ := Trace.check_exact loop
  refine ⟨⟨hcheck, hexact.mp hcheck⟩, ?_, hsafe hcheck M .empty⟩
  have hadd : loop.operations[0]? = some add := rfl
  have hlabel : loop.operations[1]? = some label := rfl
  have hsub : loop.operations[2]? = some sub := rfl
  have hguard : loop.operations[3]? = some guard := rfl
  have hjump : loop.operations[4]? = some jump := rfl
  have hstart : M.Arrives .empty loop.inputs loop.operations
      ⟨0, .ofArgs [.var i] [.int 7], ()⟩ := .start () rfl
  have hfirst : M.Arrives .empty loop.inputs loop.operations
      ⟨2, .ofArgs [.var n] [.int 8], ()⟩ :=
    (hstart.move (.pass hadd rfl rfl rfl)).move (.label hlabel rfl rfl)
  have hagain : M.Arrives .empty loop.inputs loop.operations
      ⟨2, .ofArgs [.var n] [.int 7], ()⟩ :=
    ((hfirst.move (.pass hsub rfl rfl rfl)).move (.pass hguard rfl rfl rfl)).move
      (.jump hjump rfl rfl hlabel rfl rfl)
  exact ⟨_, hagain.move (.pass hsub rfl rfl rfl), rfl, rfl⟩

end Safety

end HotLoop
