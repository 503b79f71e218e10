import HotLoop.Proofs.Chains
import HotLoop.Proofs.Compile.Submission
import Mathlib.Logic.Relation

/-!
# What a prologue is made of

A prologue loads, and does nothing else. Behind it stand the operations of the trace, with the
inputs replaced that have been loaded.
-/

namespace HotLoop

theorem invariant_of_foldlM {α β ε : Type} {f : β → α → Except ε β} {I : β → Prop} {l : List α}
    {b b' : β} (hstep : ∀ b a b', f b a = .ok b' → I b → I b') (h : l.foldlM f b = .ok b')
    (hb : I b) : I b' := by
  induction l generalizing b with
  | nil =>
    cases h
    exact hb
  | cons a l ih =>
    rw [List.foldlM_cons] at h
    cases hf : f b a with
    | error e =>
      rw [hf] at h
      cases h
    | ok b₁ =>
      rw [hf] at h
      exact ih h (hstep b a b₁ hf hb)

namespace Prologue

variable {p p' : Prologue} {opcode : OpCode} {args : List Arg} {descr : Descr} {v : Var}

theorem load_eq_ok {kind : Kind} (h : p.load opcode args kind descr = .ok (v, p')) :
    v = ⟨p.values.next, kind⟩ ∧ p' = { p with
      values := ⟨p.values.next + 1⟩
      operations := emit p.operations p.forwarding
        { opcode, args, result := some v, descr := some descr } } := by
  simp only [load, bind, Except.bind] at h
  split at h
  · cases h
  · rename_i fresh hfresh
    obtain ⟨w, values⟩ := fresh
    obtain ⟨hw, hnext⟩ := ValueIds.fresh_eq_ok hfresh
    obtain ⟨n⟩ := values
    cases hnext
    cases h
    exact ⟨hw, rfl⟩

theorem loadNext_eq_ok (h : p.loadNext opcode args descr = .ok p') :
    ∃ field pending, p.pending = field :: pending ∧ p' = {
      values := ⟨p.values.next + 1⟩
      operations := emit p.operations p.forwarding
        { opcode, args, result := some ⟨p.values.next, field.kind⟩, descr := some descr }
      pending
      forwarding := p.forwarding.forward field (.var ⟨p.values.next, field.kind⟩) } := by
  unfold loadNext at h
  split at h
  · cases h
  · rename_i field pending hpending
    simp only [bind, Except.bind] at h
    split at h
    · cases h
    · rename_i loaded hload
      obtain ⟨v, q⟩ := loaded
      obtain ⟨rfl, rfl⟩ := load_eq_ok hload
      cases h
      exact ⟨field, pending, hpending, rfl⟩

/-- One load of a prologue that reads the fields of `object`. -/
inductive Step (object : Var) (p : Prologue) : Prologue → Prop where
  | array (descr : Descr) : Step object p { p with
      values := ⟨p.values.next + 1⟩
      operations := emit p.operations p.forwarding {
        opcode := .getfieldGc
        args := [.var object]
        result := some ⟨p.values.next, .ref⟩
        descr := some descr } }
  | next (field : Var) (pending : List Var) (opcode : OpCode) (args : List Arg) (descr : Descr)
      (hpending : p.pending = field :: pending)
      (hload : opcode = .getfieldGc ∧ args = [.var object] ∨
        opcode = .getarrayitemGc ∧ ∃ array i, args = [.var array, .int i] ∧
          ∃ op ∈ p.operations, op.result = some array) :
      Step object p {
        values := ⟨p.values.next + 1⟩
        operations := emit p.operations p.forwarding
          { opcode, args, result := some ⟨p.values.next, field.kind⟩, descr := some descr }
        pending
        forwarding := p.forwarding.forward field (.var ⟨p.values.next, field.kind⟩) }

/-- Some loads of a prologue that reads the fields of `object`. -/
abbrev Steps (object : Var) : Prologue → Prologue → Prop := Relation.ReflTransGen (Step object)

variable {object : Var}

/-- What the operations of a prologue have in common with loads, they keep in common. -/
theorem Steps.opcodes {Q : OpCode → Prop} (hfield : Q .getfieldGc) (hitem : Q .getarrayitemGc)
    (h : Steps object p p') (hp : ∀ op ∈ p.operations, Q op.opcode) :
    ∀ op ∈ p'.operations, Q op.opcode := by
  induction h with
  | refl => exact hp
  | tail _ hstep ih =>
    cases hstep with
    | array =>
      intro op hop
      rcases List.mem_append.mp hop with hop | hop
      · exact ih op hop
      · rw [List.mem_singleton.mp hop]
        exact hfield
    | next field pending opcode args descr _ hload =>
      intro op hop
      rcases List.mem_append.mp hop with hop | hop
      · exact ih op hop
      · rw [List.mem_singleton.mp hop]
        rcases hload with ⟨rfl, -⟩ | ⟨rfl, -⟩
        · exact hfield
        · exact hitem

private theorem steps_of_loadNext {array : Var} {i : Int64}
    (harray : ∃ op ∈ p.operations, op.result = some array)
    (h : p.loadNext .getarrayitemGc [.var array, .int i] descr = .ok p') : Steps object p p' := by
  obtain ⟨field, pending, hpending, rfl⟩ := loadNext_eq_ok h
  exact .single (.next field pending _ _ descr hpending (.inr ⟨rfl, array, i, rfl, harray⟩))

private theorem steps_of_loadArray {arrayLength : Nat → Nat} {itemArrays : List ArrayDescr}
    {field : FieldDescr × Nat} (h : loadArray object arrayLength itemArrays p field = .ok p') :
    Steps object p p' := by
  simp only [loadArray, bind, Except.bind] at h
  split at h
  · cases h
  · rename_i loaded hload
    obtain ⟨array, q⟩ := loaded
    obtain ⟨rfl, hq⟩ := load_eq_ok hload
    have harray : Step object p q := by
      rw [hq]
      exact .array _
    have hresult : ∃ op ∈ q.operations, op.result = some ⟨p.values.next, .ref⟩ := by
      rw [hq]
      exact ⟨_, List.mem_append_right _ (List.mem_singleton_self _), rfl⟩
    split at h
    · split at h
      · cases h
      · -- the items are loaded one by one from the array
        have hitems := invariant_of_foldlM
          (I := fun r => Steps object p r ∧ ∃ op ∈ r.operations, op.result = some ⟨p.values.next, .ref⟩)
          (fun r i r' hr hI => ?_) h ⟨.single harray, hresult⟩
        · exact hitems.1
        · obtain ⟨hsteps, op, hop, hres⟩ := hI
          have hnext : Steps object r r' := steps_of_loadNext ⟨op, hop, hres⟩ hr
          refine ⟨hsteps.trans hnext, op, ?_, hres⟩
          obtain ⟨field', pending', hpending', rfl⟩ := loadNext_eq_ok hr
          exact List.mem_append_left _ hop
    · cases h

end Prologue

variable {t t' : Trace} {driver : Driver} {address : UInt64}

structure Trace.Loads (t t' : Trace) (driver : Driver) (object : Var) (p : Prologue) : Prop where
  isObject : t.inputs[driver.virtualizableIndex]? = some object
  redArgs_le : driver.redArgs ≤ t.inputs.length
  steps : Prologue.Steps object
    { values := t.values, forwarding := t.forwarding, pending := t.inputs.drop driver.redArgs } p
  pending : p.pending = []
  inputs : t'.inputs = t.inputs.take driver.redArgs
  operations : t'.operations = (p.operations ++ t.operations.map p.forwarding.apply).map
    p.forwarding.apply

theorem foldl_emit (ops out : List Operation) (σ : Forwarding) :
    ops.foldl (emit · σ ·) out = out ++ ops.map σ.apply := by
  induction ops generalizing out with
  | nil => simp
  | cons op ops ih =>
    rw [List.foldl_cons, ih, emit, List.append_assoc]
    rfl

theorem Trace.operations_forgetForwarding (t : Trace) :
    t.forgetForwarding.operations = t.operations.map t.forwarding.apply := by
  unfold forgetForwarding
  split
  · rename_i hempty
    have hid : t.forwarding.apply = id := funext fun op => Forwarding.apply_of_isEmpty hempty op
    rw [hid, List.map_id]
  · rfl

theorem Trace.inputs_forgetForwarding (t : Trace) : t.forgetForwarding.inputs = t.inputs := by
  unfold forgetForwarding
  split <;> rfl

@[simp] theorem Trace.forwarding_forgetForwarding (t : Trace) :
    t.forgetForwarding.forwarding = .empty := by
  unfold forgetForwarding
  split
  · rename_i hempty
    exact Forwarding.eq_empty_of_isEmpty hempty
  · rfl

theorem Trace.loads_of_loadVirtualizable {fields : Virtualizable}
    (hfields : driver.virtualizable = some fields)
    (h : t.loadVirtualizable driver address = .ok t') : ∃ object p, t.Loads t' driver object p := by
  simp only [loadVirtualizable, hfields, bind, Except.bind, pure, Except.pure] at h
  split at h
  · rename_i object hobject
    split at h
    · cases h
    · rename_i hred
      split at h
      · cases h
      · rename_i p₁ hstatic
        split at h
        · cases h
        · rename_i p₂ harrays
          split at h
          · cases h
          · rename_i hpending
            cases h
            have hsteps₁ := invariant_of_foldlM (I := Prologue.Steps object
              ⟨t.values, t.forwarding, [], t.inputs.drop driver.redArgs⟩)
              (fun p field p' hp hI => hI.trans ?_) hstatic .refl
            · have hsteps₂ := invariant_of_foldlM (I := Prologue.Steps object
                ⟨t.values, t.forwarding, [], t.inputs.drop driver.redArgs⟩)
                (fun p field p' hp hI => hI.trans (Prologue.steps_of_loadArray hp)) harrays hsteps₁
              refine ⟨object, p₂, hobject, by omega, hsteps₂, Decidable.not_not.mp hpending, ?_, ?_⟩
              · rw [inputs_forgetForwarding]
              · rw [operations_forgetForwarding]
                dsimp only
                rw [foldl_emit]
            · obtain ⟨v, pending, hpending, rfl⟩ := Prologue.loadNext_eq_ok hp
              exact .single (.next v pending _ _ _ hpending (.inl ⟨rfl, rfl⟩))
  · cases h

theorem Trace.Loads.opcodes {object : Var} {p : Prologue} {Q : OpCode → Prop}
    (h : t.Loads t' driver object p) (hfield : Q .getfieldGc) (hitem : Q .getarrayitemGc)
    (ht : ∀ op ∈ t.operations, Q op.opcode) : ∀ op ∈ t'.operations, Q op.opcode := by
  intro op hop
  rw [h.operations] at hop
  obtain ⟨o, ho, rfl⟩ := List.mem_map.mp hop
  rcases List.mem_append.mp ho with ho | ho
  · exact h.steps.opcodes hfield hitem (by simp) o ho
  · obtain ⟨o', ho', rfl⟩ := List.mem_map.mp ho
    exact ht o' ho'

end HotLoop
