import HotLoop.Proofs.Compile.Prologue
import HotLoop.Proofs.Consistency.Code

/-!
# Consistent code behind a prologue

A prologue puts a fresh variable in the place of every virtualizable field among the inputs. Code
that is consistent behind all of its inputs is consistent behind the loads, and these read nothing
but red arguments and arrays that have been loaded.
-/

namespace HotLoop

namespace Prologue

variable {p p' : Prologue} {object : Var} {fields : List Var} {reds visible : List Nat} {next : Nat}

/--
The loads so far, where the numbers `reds` are visible in front of them: a field has its own number
until it has been loaded, and one from `next` on afterwards, and nothing else is renamed.
-/
structure Loaded (reds : List Nat) (fields : List Var) (next : Nat) (p : Prologue)
    (f : Nat → Nat) (visible : List Nat) : Prop where
  grounded : p.forwarding.Grounded
  renames : p.forwarding.Renames f
  targets : ∀ v a, p.forwarding.get? v = some a → p.forwarding.IsEnd a ∧
    ∃ w, a = .var w ∧ next ≤ w.id
  below : p.forwarding.Below p.values.next
  next_le : next ≤ p.values.next
  fixed : ∀ i ∉ fields.map (·.id), f i = i
  loaded : ∀ v ∈ fields, v ∈ p.pending ∨ f v.id ∈ visible ∧ next ≤ f v.id
  pending : p.pending ⊆ fields
  flows : Flows reds p.operations visible
  reds_visible : reds ⊆ visible
  cases : ∀ i ∈ visible, i ∈ reds ∨ next ≤ i
  results : ∀ op ∈ p.operations, ∀ r, op.result = some r → r.id ∈ visible ∧ next ≤ r.id
  uses : ∀ op ∈ p.operations, ∀ v ∈ op.uses, v.id ∈ visible
  visible_lt : ∀ i ∈ visible, i < p.values.next

namespace Loaded

variable {f : Nat → Nat}

theorem start {values : ValueIds} (hreds : ∀ i ∈ reds, i < values.next) :
    Loaded reds fields values.next
      { values, forwarding := .empty, operations := [], pending := fields } id reds where
  grounded := Forwarding.grounded_empty
  renames v := ⟨v, Forwarding.resolve_of_get?_none rfl, rfl⟩
  targets _ _ hget := by cases hget
  below := ⟨fun _ hget => absurd rfl hget, fun _ _ hget => by cases hget⟩
  next_le := Nat.le_refl _
  fixed _ _ := rfl
  loaded _ hv := .inl hv
  pending := List.Subset.refl _
  flows := .nil reds
  reds_visible := List.Subset.refl _
  cases _ hi := .inl hi
  results _ hop := by cases hop
  uses _ hop := by cases hop
  visible_lt := hreds

variable {op : Operation} {kind : Kind}

private theorem mem_uses_apply (h : Loaded reds fields next p f visible)
    (huses : ∀ v ∈ op.uses, v.id ∈ visible ∧ f v.id = v.id) {v : Var}
    (hv : v ∈ (p.forwarding.apply op).uses) : v.id ∈ visible := by
  obtain ⟨u, hu, hid⟩ := h.renames.mem_uses_apply hv
  obtain ⟨hvisible, hfixed⟩ := huses u hu
  rw [← hid, hfixed]
  exact hvisible

private theorem flows_emit (h : Loaded reds fields next p f visible)
    (hfinal : op.isFinal = false) (hlabel : op.opcode ≠ .label)
    (huses : ∀ v ∈ op.uses, v.id ∈ visible ∧ f v.id = v.id)
    (hresult : op.result = some ⟨p.values.next, kind⟩) :
    Flows reds (emit p.operations p.forwarding op) (p.values.next :: visible) := by
  exact h.flows.append (.single hfinal (fun v hv => h.mem_uses_apply huses hv)
    (visibleAfter_eq_ok.mpr (.inr ⟨hlabel, .inr ⟨_, hresult, fun hmem =>
      absurd (h.visible_lt _ hmem) (Nat.lt_irrefl _), rfl⟩⟩)))

theorem emit (h : Loaded reds fields next p f visible)
    (hfinal : op.isFinal = false) (hlabel : op.opcode ≠ .label)
    (huses : ∀ v ∈ op.uses, v.id ∈ visible ∧ f v.id = v.id)
    (hresult : op.result = some ⟨p.values.next, kind⟩) :
    Loaded reds fields next { p with
      values := ⟨p.values.next + 1⟩
      operations := HotLoop.emit p.operations p.forwarding op } f (p.values.next :: visible) where
  grounded := h.grounded
  renames := h.renames
  targets := h.targets
  below := h.below.mono (Nat.le_succ _)
  next_le := Nat.le_succ_of_le h.next_le
  fixed := h.fixed
  loaded v hv := (h.loaded v hv).imp_right fun hv => ⟨List.mem_cons_of_mem _ hv.1, hv.2⟩
  pending := h.pending
  flows := h.flows_emit hfinal hlabel huses hresult
  reds_visible := fun _ hi => List.mem_cons_of_mem _ (h.reds_visible hi)
  cases i hi := by
    rcases List.mem_cons.mp hi with rfl | hi
    · exact .inr h.next_le
    · exact h.cases i hi
  results o ho r hr := by
    rcases List.mem_append.mp ho with ho | ho
    · obtain ⟨hmem, hle⟩ := h.results o ho r hr
      exact ⟨List.mem_cons_of_mem _ hmem, hle⟩
    · rw [List.mem_singleton.mp ho] at hr
      cases hresult.symm.trans hr
      exact ⟨List.mem_cons_self .., h.next_le⟩
  uses o ho v hv := by
    rcases List.mem_append.mp ho with ho | ho
    · exact List.mem_cons_of_mem _ (h.uses o ho v hv)
    · rw [List.mem_singleton.mp ho] at hv
      exact List.mem_cons_of_mem _ (h.mem_uses_apply huses hv)
  visible_lt i hi := by
    rcases List.mem_cons.mp hi with rfl | hi
    · exact Nat.lt_succ_self _
    · exact Nat.lt_succ_of_lt (h.visible_lt i hi)

theorem forward (h : Loaded reds fields next p f visible) {field w : Var}
    {pending : List Var} (hfields : ∀ v ∈ fields, v.id < next) (hpending : p.pending = field :: pending)
    (hw : w.id ∈ visible) (hle : next ≤ w.id) (hend : p.forwarding.IsEnd (.var w)) :
    Loaded reds fields next { p with
      pending, forwarding := p.forwarding.forward field (.var w) }
      (Function.update f field.id w.id) visible := by
  have hmem : field ∈ fields := h.pending (hpending ▸ List.mem_cons_self ..)
  have hlt := hfields field hmem
  have hne : ∀ u, Arg.var w = .var u → u.id ≠ field.id := by
    rintro _ ⟨rfl⟩
    omega
  exact {
    grounded := h.grounded.forward hend hne
    renames := fun v => by
      by_cases hid : v.id = field.id
      · have hpass : p.forwarding.Passes (.var v) field.id :=
          hid ▸ Forwarding.passes_var p.forwarding v
        refine ⟨w, Forwarding.resolve_forward_of_passes h.grounded hend hne hpass, ?_⟩
        rw [hid, Function.update_self]
      · -- a chain goes to what has been loaded, and that is no field
        have hpass : ¬ p.forwarding.Passes (.var v) field.id := by
          intro hpass
          rcases Forwarding.eq_or_of_passes (fun u a hu => (h.targets u a hu).1) hpass with
            heq | ⟨u, hu, huid⟩
          · exact hid heq.symm
          · obtain ⟨-, u', ⟨rfl⟩, hle⟩ := h.targets v _ hu
            omega
        obtain ⟨u, hu, huid⟩ := h.renames v
        refine ⟨u, ?_, ?_⟩
        · rw [Forwarding.resolve_forward_of_not_passes h.grounded hne hpass]
          exact hu
        · rw [Function.update_of_ne hid]
          exact huid
    targets := fun v a hget => by
      have hends (b : Arg) (hb : p.forwarding.IsEnd b) (hbfield : ∀ u, b = .var u → u.id ≠ field.id) :
          (p.forwarding.forward field (.var w)).IsEnd b :=
        (Forwarding.isEnd_forward_of_ne hbfield).mpr hb
      rw [Forwarding.get?_forward] at hget
      split at hget
      · cases hget
        exact ⟨hends _ hend hne, w, rfl, hle⟩
      · obtain ⟨ha, u, rfl, hu⟩ := h.targets v a hget
        refine ⟨hends _ ha ?_, u, rfl, hu⟩
        rintro _ ⟨rfl⟩
        omega
    below := h.below.forward (Nat.lt_of_lt_of_le hlt h.next_le) (by
      rintro _ ⟨rfl⟩
      exact h.visible_lt _ hw)
    next_le := h.next_le
    fixed := fun i hi => by
      have hother : i ≠ field.id := fun heq => hi (heq ▸ List.mem_map_of_mem hmem)
      rw [Function.update_of_ne hother]
      exact h.fixed i hi
    loaded := fun v hv => by
      by_cases hid : v.id = field.id
      · rw [hid, Function.update_self]
        exact .inr ⟨hw, hle⟩
      · rw [Function.update_of_ne hid]
        refine (h.loaded v hv).imp_left fun hv => ?_
        rw [hpending] at hv
        rcases List.mem_cons.mp hv with rfl | hv
        · exact absurd rfl hid
        · exact hv
    pending := fun v hv => h.pending (hpending ▸ List.mem_cons_of_mem _ hv)
    flows := h.flows
    reds_visible := h.reds_visible
    cases := h.cases
    results := h.results
    uses := h.uses
    visible_lt := h.visible_lt }

theorem fixed_of_visible (h : Loaded reds fields next p f visible)
    (hfields : ∀ v ∈ fields, v.id < next) (hreds : ∀ v ∈ fields, v.id ∉ reds) {i : Nat}
    (hi : i ∈ visible) : f i = i := by
  refine h.fixed i fun hmem => ?_
  obtain ⟨v, hv, rfl⟩ := List.mem_map.mp hmem
  rcases h.cases v.id hi with hi | hi
  · exact hreds v hv hi
  · have := hfields v hv
    omega

/-- Behind the last load every field has been replaced. -/
theorem all (h : Loaded reds fields next p f visible) (hpending : p.pending = []) :
    ∀ v ∈ fields, f v.id ∈ visible ∧ next ≤ f v.id := by
  intro v hv
  refine (h.loaded v hv).resolve_left fun hmem => ?_
  rw [hpending] at hmem
  cases hmem

theorem step (h : Loaded reds fields next p f visible) (hfields : ∀ v ∈ fields, v.id < next)
    (hreds : ∀ v ∈ fields, v.id ∉ reds) (hobject : object.id ∈ reds) (hstep : Step object p p') :
    ∃ f' visible', Loaded reds fields next p' f' visible' := by
  have huses {opcode : OpCode} {args : List Arg} {kind : Kind} {descr : Descr} {v : Var}
      (hargs : args.filterMap Arg.var? = [v]) (hv : v.id ∈ visible) :
      ∀ u ∈ ({ opcode, args, result := some ⟨p.values.next, kind⟩, descr := some descr } :
        Operation).uses, u.id ∈ visible ∧ f u.id = u.id := by
    intro u hu
    have hu : u ∈ args.filterMap Arg.var? ++ [] := hu
    rw [List.append_nil, hargs, List.mem_singleton] at hu
    exact hu ▸ ⟨hv, h.fixed_of_visible hfields hreds hv⟩
  cases hstep with
  | array descr =>
    exact ⟨f, _, h.emit rfl OpCode.noConfusion (huses rfl (h.reds_visible hobject)) rfl⟩
  | next field pending opcode args descr hpending hload =>
    have hemit : Loaded reds fields next { p with
        values := ⟨p.values.next + 1⟩
        operations := HotLoop.emit p.operations p.forwarding
          { opcode, args, result := some ⟨p.values.next, field.kind⟩, descr := some descr } } f
        (p.values.next :: visible) := by
      rcases hload with ⟨rfl, rfl⟩ | ⟨rfl, array, i, rfl, op, hop, hr⟩
      · exact h.emit rfl OpCode.noConfusion (huses rfl (h.reds_visible hobject)) rfl
      · exact h.emit rfl OpCode.noConfusion (huses rfl (h.results op hop array hr).1) rfl
    exact ⟨_, _, hemit.forward hfields hpending (w := ⟨p.values.next, field.kind⟩)
      (List.mem_cons_self ..) h.next_le (h.below.isEnd (Nat.le_refl _))⟩

theorem steps (h : Loaded reds fields next p f visible) (hfields : ∀ v ∈ fields, v.id < next)
    (hreds : ∀ v ∈ fields, v.id ∉ reds) (hobject : object.id ∈ reds) (hsteps : Steps object p p') :
    ∃ f' visible', Loaded reds fields next p' f' visible' := by
  induction hsteps with
  | refl => exact ⟨f, visible, h⟩
  | tail _ hstep ih =>
    obtain ⟨f₁, visible₁, h₁⟩ := ih
    exact h₁.step hfields hreds hobject hstep

end Loaded

end Prologue

/--
Consistent code behind `reds` and `fields`, with numbers below `next`, in which no operation gives a
new value to a field.
-/
structure FieldsApart (reds fields : List Var) (ops : List Operation) (next : Nat) : Prop where
  nodup : ((reds ++ fields).map (·.id)).Nodup
  inputs_lt : ∀ v ∈ reds ++ fields, v.id < next
  branch : checkBranch ((reds ++ fields).map (·.id)) ops = .ok ()
  results_lt : ∀ i ∈ resultIds ops, i < next
  spared : ∀ i ∈ resultIds ops, i ∉ fields.map (·.id)

namespace FieldsApart

variable {reds fields : List Var} {ops : List Operation} {next : Nat} {object : Var}
  {p : Prologue} {f : Nat → Nat} {seen visible : List Nat}

theorem fields_lt (h : FieldsApart reds fields ops next) : ∀ v ∈ fields, v.id < next :=
  fun v hv => h.inputs_lt v (List.mem_append_right _ hv)

theorem fields_notMem (h : FieldsApart reds fields ops next)
    (hseen : ∀ i, i ∈ seen ↔ i ∈ reds.map (·.id)) : ∀ v ∈ fields, v.id ∉ seen := by
  have hnodup := h.nodup
  rw [List.map_append, List.nodup_append] at hnodup
  exact fun v hv hmem =>
    hnodup.2.2 v.id ((hseen _).mp hmem) v.id (List.mem_map_of_mem hv) rfl

theorem nodup_reds (h : FieldsApart reds fields ops next) : (reds.map (·.id)).Nodup := by
  have hnodup := h.nodup
  rw [List.map_append, List.nodup_append] at hnodup
  exact hnodup.1

theorem start (h : FieldsApart reds fields ops next) (hseen : ∀ i, i ∈ seen ↔ i ∈ reds.map (·.id))
    {values : ValueIds} (hvalues : values.next = next) :
    Prologue.Loaded seen fields next ⟨values, .empty, [], fields⟩ id seen := by
  subst hvalues
  refine .start fun i hi => ?_
  obtain ⟨v, hv, rfl⟩ := List.mem_map.mp ((hseen i).mp hi)
  exact h.inputs_lt v (List.mem_append_left _ hv)

/-- Results keep their numbers behind a prologue, and nothing gets the number of a result. -/
theorem sparesResult (h : FieldsApart reds fields ops next)
    (hloaded : Prologue.Loaded seen fields next p f visible) (hpending : p.pending = [])
    {op : Operation} (hop : op ∈ ops) : SparesResult f op := by
  intro r hr i
  have hmem := mem_resultIds hop hr
  by_cases hi : i ∈ fields.map (·.id)
  · obtain ⟨v, hv, rfl⟩ := List.mem_map.mp hi
    have hle := (hloaded.all hpending v hv).2
    have hlt := h.results_lt r.id hmem
    exact ⟨fun heq => by omega, fun heq => absurd (heq ▸ hi) (h.spared r.id hmem)⟩
  · rw [hloaded.fixed i hi]

theorem check_loaded (h : FieldsApart reds fields ops next)
    (hseen : ∀ i, i ∈ seen ↔ i ∈ reds.map (·.id))
    (hloaded : Prologue.Loaded seen fields next p f visible) (hpending : p.pending = []) :
    checkBranch seen ((p.operations ++ ops.map p.forwarding.apply).map p.forwarding.apply) =
      .ok () := by
  have hfixed {i : Nat} (hi : i ∈ visible) : f i = i :=
    hloaded.fixed_of_visible h.fields_lt (h.fields_notMem hseen) hi
  -- the replacements are made when the operations are emitted, and once more at the end
  have htwice : (ops.map p.forwarding.apply).map p.forwarding.apply = ops.map p.forwarding.apply := by
    rw [List.map_map]
    exact List.map_congr_left fun op _ => hloaded.grounded.apply_apply op
  have hops : checkBranch visible (ops.map p.forwarding.apply) = .ok () := by
    refine checkBranch_rename hloaded.renames h.branch (fun i hi => ?_)
      (fun op hop => h.sparesResult hloaded hpending hop) fun op hop r hr hmem => ?_
    · obtain ⟨v, hv, rfl⟩ := List.mem_map.mp hi
      rcases List.mem_append.mp hv with hv | hv
      · have hmem := hloaded.reds_visible ((hseen _).mpr (List.mem_map_of_mem hv))
        rwa [hfixed hmem]
      · exact (hloaded.all hpending v hv).1
    · -- a result may have the number of a red argument that a label has hidden
      rcases hloaded.cases r.id hmem with hred | hle
      · rw [List.map_append]
        exact List.mem_append_left _ ((hseen _).mp hred)
      · have := h.results_lt r.id (mem_resultIds hop hr)
        omega
  have hflows : Flows seen (p.operations.map p.forwarding.apply) visible :=
    hloaded.flows.map_apply hloaded.renames (fun i hi => hfixed (hloaded.reds_visible hi))
      fun op hop r hr => hfixed (hloaded.results op hop r hr).1
  rw [List.map_append, htwice]
  exact hflows.checkBranch_append hops

end FieldsApart


variable {t t' : Trace} {driver : Driver} {address : UInt64}

/-- Whatever inputs are fields, they are apart in code that redefines no input. -/
theorem Ready.fieldsApart {reds fields : List Var}
    (h : Ready t.inputs t.operations t.values.next) (hsplit : reds ++ fields = t.inputs) :
    FieldsApart reds fields t.operations t.values.next where
  nodup := hsplit ▸ h.nodup
  inputs_lt := hsplit ▸ h.inputs_lt
  branch := hsplit ▸ h.asBranch
  results_lt := h.results_lt
  spared i hi hmem := h.results_new i hi (by
    rw [← hsplit, List.map_append]
    exact List.mem_append_right _ hmem)

private theorem Ready.check_of_loads {object : Var} {p : Prologue}
    (h : Ready t.inputs t.operations t.values.next) (hempty : t.forwarding = .empty)
    (hindex : driver.virtualizableIndex < driver.redArgs) (hloads : t.Loads t' driver object p) :
    t'.check = .ok () := by
  have hsplit : t'.inputs ++ t.inputs.drop driver.redArgs = t.inputs := by
    rw [hloads.inputs, List.take_append_drop]
  have hapart := h.fieldsApart hsplit
  obtain ⟨seen, hinputs, hseen⟩ := checkInputs_eq_ok hapart.nodup_reds
  have hobject : object.id ∈ seen := by
    have hget : t'.inputs[driver.virtualizableIndex]? = some object := by
      rw [hloads.inputs, List.getElem?_take_of_lt hindex]
      exact hloads.isObject
    exact (hseen _).mpr (List.mem_map_of_mem (List.mem_of_getElem? hget))
  obtain ⟨f, visible, hloaded⟩ := (hapart.start hseen rfl).steps hapart.fields_lt
    (hapart.fields_notMem hseen) hobject (hempty ▸ hloads.steps)
  rw [Trace.check, checkCode, hinputs, hloads.operations]
  exact hapart.check_loaded hseen hloaded hloads.pending

/-- Behind a prologue the loop is consistent, whether there are fields to load or not. -/
theorem Ready.check_of_loadVirtualizable (h : Ready t.inputs t.operations t.values.next)
    (hempty : t.forwarding = .empty)
    (hdriver : driver.virtualizable = none ∨ driver.virtualizableIndex < driver.redArgs)
    (hload : t.loadVirtualizable driver address = .ok t') : t'.check = .ok () := by
  cases hfields : driver.virtualizable with
  | none =>
    rw [(Trace.loadVirtualizable_eq_ok hload).2 hfields]
    exact h.asCode
  | some fields =>
    obtain ⟨object, p, hloads⟩ := Trace.loads_of_loadVirtualizable hfields hload
    refine h.check_of_loads hempty (hdriver.resolve_left ?_) hloads
    rw [hfields]
    exact Option.some_ne_none fields

end HotLoop
