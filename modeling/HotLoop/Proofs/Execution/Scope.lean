import HotLoop.Proofs.Execution.Machine

/-!
# Scope and lifetime of variables

Recorded operations define every variable once and before its first use. When the numbers of some
variables are taken over for other values, those variables must not be read any more; the second
walk over a loop does that to inputs for which the header takes a result of the first.
-/

namespace HotLoop

/-- The variables that an operation reads, for itself or for where it fails. -/
def Operation.uses (op : Operation) : List Var := op.argVars ++ op.failVars

theorem mem_failVars_iff {op : Operation} {v : Var} :
    v ∈ op.failVars ↔ some v ∈ op.failSlots := by
  simp [Operation.failVars]

theorem mem_uses_iff {op : Operation} {v : Var} :
    v ∈ op.uses ↔ .var v ∈ op.args ∨ some v ∈ op.failSlots := by
  rw [Operation.uses, List.mem_append, mem_failVars_iff, Operation.argVars,
    Arg.mem_filterMap_var?_iff]

theorem mem_uses_of_mem_args {op : Operation} {v : Var} (h : .var v ∈ op.args) : v ∈ op.uses :=
  mem_uses_iff.mpr (.inl h)

theorem mem_uses_of_mem_failSlots {op : Operation} {v : Var} (h : some v ∈ op.failSlots) :
    v ∈ op.uses :=
  mem_uses_iff.mpr (.inr h)

def Operation.extend (seen : List Var) (op : Operation) : List Var := op.defines?.toList ++ seen

def scopeAfter (seen : List Var) (ops : List Operation) : List Var :=
  ops.foldl Operation.extend seen

/-- Every variable is defined once, and before it is used; `seen` is in scope to begin with. -/
def Scoped (seen : List Var) : List Operation → Prop
  | [] => True
  | op :: rest =>
    (∀ v ∈ op.uses, v ∈ seen) ∧ (∀ r, op.result = some r → r.id ∉ seen.map (·.id)) ∧
      op.opcode ≠ .label ∧ Scoped (op.extend seen) rest

instance Scoped.decidable (seen : List Var) :
    (ops : List Operation) → Decidable (Scoped seen ops)
  | [] => .isTrue trivial
  | op :: rest =>
    have : Decidable (Scoped (op.extend seen) rest) := Scoped.decidable (op.extend seen) rest
    have : Decidable (∀ r, op.result = some r → r.id ∉ seen.map (·.id)) :=
      match op.result with
      | none => .isTrue fun _ h => by cases h
      | some r => decidable_of_iff (r.id ∉ seen.map (·.id))
          ⟨fun h _ hr => Option.some.inj hr ▸ h, fun h => h r rfl⟩
    inferInstanceAs (Decidable (_ ∧ _ ∧ _ ∧ _))

theorem mem_extend {seen : List Var} {op : Operation} {v : Var} :
    v ∈ op.extend seen ↔ op.defines? = some v ∨ v ∈ seen := by
  simp [Operation.extend]

theorem result_of_defines? {op : Operation} {v : Var} (h : op.defines? = some v) :
    op.result = some v := by
  unfold Operation.defines? at h
  split at h
  · cases h
  · exact h

theorem Scoped.fresh {seen : List Var} {ops : List Operation} (h : Scoped seen ops) :
    ∀ op ∈ ops, ∀ r, op.result = some r → ∀ v ∈ seen, v.id ≠ r.id := by
  induction ops generalizing seen with
  | nil => simp
  | cons op ops ih =>
    obtain ⟨-, hresult, -, hrest⟩ := h
    intro o ho r hr v hv heq
    rcases List.mem_cons.mp ho with rfl | ho
    · exact hresult r hr (heq ▸ List.mem_map_of_mem hv)
    · exact ih hrest o ho r hr v (mem_extend.mpr (.inr hv)) heq

theorem subset_scopeAfter {seen : List Var} {ops : List Operation} {v : Var} (h : v ∈ seen) :
    v ∈ scopeAfter seen ops := by
  induction ops generalizing seen with
  | nil => exact h
  | cons op ops ih => exact ih (mem_extend.mpr (.inr h))

theorem Scoped.nodup_scopeAfter {seen : List Var} {ops : List Operation} (h : Scoped seen ops)
    (hseen : (seen.map (·.id)).Nodup) : ((scopeAfter seen ops).map (·.id)).Nodup := by
  induction ops generalizing seen with
  | nil => exact hseen
  | cons op ops ih =>
    obtain ⟨-, hresult, -, hrest⟩ := h
    refine ih hrest ?_
    unfold Operation.extend
    cases hdef : op.defines? with
    | none => exact hseen
    | some r => exact List.nodup_cons.mpr ⟨hresult r (result_of_defines? hdef), hseen⟩

theorem lt_of_mem_scopeAfter {seen : List Var} {ops : List Operation} {n : Nat}
    (hseen : ∀ v ∈ seen, v.id < n) (hops : ∀ op ∈ ops, ∀ r, op.result = some r → r.id < n) :
    ∀ v ∈ scopeAfter seen ops, v.id < n := by
  induction ops generalizing seen with
  | nil => exact hseen
  | cons op ops ih =>
    refine ih (fun v hv => ?_) fun o ho => hops o (List.mem_cons_of_mem _ ho)
    rcases mem_extend.mp hv with hdef | hv
    · exact hops op (List.mem_cons_self ..) v (result_of_defines? hdef)
    · exact hseen v hv

/-- None of the variables is read by the operations, nor among the arguments behind them. -/
def Unread (ids : List Nat) (ops : List Operation) (args : List Arg) : Prop :=
  (∀ op ∈ ops, ∀ v ∈ op.uses, v.id ∉ ids) ∧ ∀ v ∈ args.filterMap Arg.var?, v.id ∉ ids

instance (ids : List Nat) (ops : List Operation) (args : List Arg) :
    Decidable (Unread ids ops args) :=
  inferInstanceAs (Decidable (_ ∧ _))

theorem unread_nil (ops : List Operation) (args : List Arg) : Unread [] ops args := by
  simp [Unread]

theorem Unread.append {ids ids' : List Nat} {ops : List Operation} {args : List Arg}
    (h : Unread ids ops args) (h' : Unread ids' ops args) : Unread (ids ++ ids') ops args := by
  refine ⟨fun op hop v hv hmem => ?_, fun v hv hmem => ?_⟩
  · rcases List.mem_append.mp hmem with hmem | hmem
    · exact h.1 op hop v hv hmem
    · exact h'.1 op hop v hv hmem
  · rcases List.mem_append.mp hmem with hmem | hmem
    · exact h.2 v hv hmem
    · exact h'.2 v hv hmem

theorem Unread.tail {ids : List Nat} {op : Operation} {ops : List Operation} {args : List Arg}
    (h : Unread ids (op :: ops) args) : Unread ids ops args :=
  ⟨fun o ho => h.1 o (List.mem_cons_of_mem _ ho), h.2⟩

/-- The variables of one value behind an operation: a copy of one of them is one more. -/
def Operation.copies (op : Operation) (ids : List Nat) : List Nat :=
  match op.opcode, op.args, op.result with
  | .sameAs, .var v :: _, some r => if v.id ∈ ids then r.id :: ids else ids
  | _, _, _ => ids

theorem copies_nil (op : Operation) : op.copies [] = [] := by
  unfold Operation.copies
  split <;> simp

theorem subset_copies (op : Operation) (ids : List Nat) : ids ⊆ op.copies ids := by
  unfold Operation.copies
  split
  · split
    · exact List.subset_cons_self ..
    · exact List.Subset.refl _
  · exact List.Subset.refl _

theorem mem_copies {op : Operation} {v r : Var} {rest : List Arg} {ids : List Nat}
    (hop : op.opcode = .sameAs) (hargs : op.args = .var v :: rest) (hr : op.result = some r)
    (hv : v.id ∈ ids) : r.id ∈ op.copies ids := by
  simp only [Operation.copies, hop, hargs, hr, if_pos hv]
  exact List.mem_cons_self ..

/--
The variables `ids`, which have the value that the variable `r` starts with, and the copies of that
value are not read any more once an operation has redefined `r`.
-/
def KeepsValue (args : List Arg) (r : Nat) : List Nat → List Operation → Prop
  | _, [] => True
  | ids, op :: rest =>
    if op.result.map (·.id) = some r then (∀ v ∈ op.failVars, v.id ∉ ids) ∧ Unread ids rest args
    else KeepsValue args r (op.copies ids) rest

instance KeepsValue.decidable (args : List Arg) (r : Nat) :
    (ids : List Nat) → (ops : List Operation) → Decidable (KeepsValue args r ids ops)
  | _, [] => .isTrue trivial
  | ids, op :: rest =>
    if h : op.result.map (·.id) = some r then
      decidable_of_iff ((∀ v ∈ op.failVars, v.id ∉ ids) ∧ Unread ids rest args)
        (by rw [KeepsValue, if_pos h])
    else
      have := KeepsValue.decidable args r (op.copies ids) rest
      decidable_of_iff (KeepsValue args r (op.copies ids) rest) (by rw [KeepsValue, if_neg h])

theorem keepsValue_nil (args : List Arg) (r : Nat) (ops : List Operation) :
    KeepsValue args r [] ops := by
  induction ops with
  | nil => trivial
  | cons op ops ih =>
    unfold KeepsValue
    split
    · exact ⟨by simp, unread_nil ..⟩
    · rw [copies_nil]
      exact ih

theorem keepsValue_of_forall_ne {args : List Arg} {r : Nat} {ids : List Nat} {ops : List Operation}
    (h : ∀ op ∈ ops, ∀ v, op.result = some v → v.id ≠ r) : KeepsValue args r ids ops := by
  induction ops generalizing ids with
  | nil => trivial
  | cons op ops ih =>
    have hne : op.result.map (·.id) ≠ some r := by
      intro heq
      obtain ⟨v, hv, hid⟩ := Option.map_eq_some_iff.mp heq
      exact h op (List.mem_cons_self ..) v hv hid
    rw [KeepsValue, if_neg hne]
    exact ih fun o ho => h o (List.mem_cons_of_mem _ ho)

/--
No input of a loop, nor a copy of it, is read once an operation has redefined the variable that the
header has taken for it.
-/
def KeepsInputs (inputs header : List Var) (ops : List Operation) (args : List Arg) : Prop :=
  ∀ e ∈ inputs.zip header, KeepsValue args e.2.id [e.1.id] ops

instance (inputs header : List Var) (ops : List Operation) (args : List Arg) :
    Decidable (KeepsInputs inputs header ops args) :=
  inferInstanceAs (Decidable (∀ _ ∈ _, _))

/--
A recorded loop: distinct inputs, operations in which every variable is defined once and before it
is used and none of which ends the trace, arguments for the next round that are in scope, and
numbers below `next`, the first that has not been given to a variable yet.
-/
structure WellFormedLoop (inputs : List Var) (ops : List Operation) (args : List Arg)
    (next : Nat) : Prop where
  nodup : (inputs.map (·.id)).Nodup
  inScope : Scoped inputs ops
  straight : ∀ op ∈ ops, op.isFinal = false
  args_inScope : ∀ v ∈ args.filterMap Arg.var?, v ∈ scopeAfter inputs ops
  inputs_lt : ∀ v ∈ inputs, v.id < next
  results_lt : ∀ r ∈ ops.filterMap (·.result), r.id < next

theorem wellFormedLoop_iff {inputs : List Var} {ops : List Operation} {args : List Arg}
    {next : Nat} : WellFormedLoop inputs ops args next ↔
      (inputs.map (·.id)).Nodup ∧ Scoped inputs ops ∧ (∀ op ∈ ops, op.isFinal = false) ∧
        (∀ v ∈ args.filterMap Arg.var?, v ∈ scopeAfter inputs ops) ∧
        (∀ v ∈ inputs, v.id < next) ∧ ∀ r ∈ ops.filterMap (·.result), r.id < next :=
  ⟨fun ⟨h₁, h₂, h₃, h₄, h₅, h₆⟩ => ⟨h₁, h₂, h₃, h₄, h₅, h₆⟩,
    fun ⟨h₁, h₂, h₃, h₄, h₅, h₆⟩ => ⟨h₁, h₂, h₃, h₄, h₅, h₆⟩⟩

instance (inputs : List Var) (ops : List Operation) (args : List Arg) (next : Nat) :
    Decidable (WellFormedLoop inputs ops args next) :=
  decidable_of_iff' _ wellFormedLoop_iff

end HotLoop
