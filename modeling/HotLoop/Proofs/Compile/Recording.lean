import HotLoop.Proofs.Collection.Generations
import HotLoop.Proofs.Compile.Submission

/-!
# What submitted code leaves behind

Before a trace is submitted, the entry points of its labels are told where they will be. When it has
been submitted, every operation that leads to another unit is remembered as a jump. Nothing but the
unit of the trace changes by that.
-/

namespace HotLoop

/-- The unit that an operation leads to when it is executed. -/
def Operation.leadsTo? (entries : EntryTable) (op : Operation) : Option UnitHandle :=
  match op.descr with
  | some (.cell unit) => some unit
  | some (.target e) => entries.home? e
  | _ => none

def Operation.labels? (op : Operation) : Option EntryPoint :=
  match op.opcode, op.descr with
  | .label, some (.target e) => some e
  | _, _ => none

/-- Every entry point of the first table has the same home in the second one. -/
structure EntryTable.KeepsHomes (t t' : EntryTable) : Prop where
  length_le : t.homes.length ≤ t'.homes.length
  home?_eq : ∀ e : EntryPoint, e.id < t.homes.length → t'.home? e = t.home? e

namespace EntryTable

variable {t t' t'' : EntryTable} {e : EntryPoint} {home : UnitHandle}

theorem KeepsHomes.refl (t : EntryTable) : KeepsHomes t t := ⟨Nat.le_refl _, fun _ _ => rfl⟩

theorem KeepsHomes.trans (h : KeepsHomes t t') (h' : KeepsHomes t' t'') : KeepsHomes t t'' where
  length_le := Nat.le_trans h.length_le h'.length_le
  home?_eq e he := (h'.home?_eq e (Nat.lt_of_lt_of_le he h.length_le)).trans (h.home?_eq e he)

theorem KeepsHomes.ofAppend (h : t.homes <+: t'.homes) : KeepsHomes t t' where
  length_le := h.length_le
  home?_eq e he := by
    obtain ⟨rest, heq⟩ := h
    rw [home?, home?, ← heq, List.getElem?_append_left he]

theorem lt_of_home? (h : t.home? e = some home) : e.id < t.homes.length := by
  refine Nat.lt_of_not_le fun hle => ?_
  rw [home?, List.getElem?_eq_none hle] at h
  cases h

theorem KeepsHomes.home?_eq_some (h : KeepsHomes t t') (hhome : t.home? e = some home) :
    t'.home? e = some home :=
  (h.home?_eq e (lt_of_home? hhome)).trans hhome

private def settle (home : Option UnitHandle) (t : EntryTable) (op : Operation) : EntryTable :=
  match op.labels? with
  | some e => t.setHome e home
  | none => t

private theorem length_settle (home : Option UnitHandle) (t : EntryTable) (op : Operation) :
    (settle home t op).homes.length = t.homes.length := by
  unfold settle
  split
  · exact List.length_set ..
  · rfl

private theorem length_foldl_settle (home : Option UnitHandle) (ops : List Operation) :
    (ops.foldl (settle home) t).homes.length = t.homes.length := by
  induction ops generalizing t with
  | nil => rfl
  | cons op ops ih => rw [List.foldl_cons, ih, length_settle]

private theorem home?_settle (home : Option UnitHandle) (op : Operation) :
    (settle home t op).home? e =
      if (∃ e', op.labels? = some e' ∧ e'.id = e.id) ∧ e.id < t.homes.length then home
      else t.home? e := by
  unfold settle
  cases hop : op.labels? with
  | none => simp
  | some e' =>
    rw [home?_setHome]
    simp only [Option.some.injEq, exists_eq_left']
    by_cases hid : e.id = e'.id
    · simp [hid]
    · have hid' : ¬ e'.id = e.id := fun h => hid h.symm
      simp [hid, hid']

private theorem home?_foldl_settle (home : Option UnitHandle) (ops : List Operation) :
    (ops.foldl (settle home) t).home? e =
      if (∃ op ∈ ops, ∃ e', op.labels? = some e' ∧ e'.id = e.id) ∧ e.id < t.homes.length then home
      else t.home? e := by
  induction ops generalizing t with
  | nil => simp
  | cons op ops ih =>
    rw [List.foldl_cons, ih, length_settle, home?_settle]
    simp only [List.mem_cons, exists_eq_or_imp]
    by_cases hlt : e.id < t.homes.length
    · by_cases hrest : ∃ op ∈ ops, ∃ e', op.labels? = some e' ∧ e'.id = e.id
      · simp [hrest, hlt]
      · simp [hrest, hlt]
    · simp [hlt]

end EntryTable

namespace Submission

variable {s : Submission} {e : EntryPoint}

private theorem propagate_eq (s : Submission) :
    s.propagate = { s with context := { s.context with
      entries := s.trace.operations.foldl (EntryTable.settle s.trace.home) s.context.entries } } := by
  have hsettle : (fun (t : EntryTable) (op : Operation) => match op.opcode, op.descr with
      | .label, some (.target e) => t.setHome e s.trace.home
      | _, _ => t) = EntryTable.settle s.trace.home := by
    funext t op
    unfold EntryTable.settle Operation.labels?
    split <;> simp_all
  exact congrArg (fun f => { s with context := { s.context with
    entries := s.trace.operations.foldl f s.context.entries } }) hsettle

theorem length_propagate (s : Submission) :
    s.propagate.context.entries.homes.length = s.context.entries.homes.length := by
  rw [propagate_eq]
  exact EntryTable.length_foldl_settle ..

theorem home?_propagate_of_mem {op : Operation} (hop : op ∈ s.trace.operations)
    (he : op.labels? = some e) (hlt : e.id < s.context.entries.homes.length) :
    s.propagate.context.entries.home? e = s.trace.home := by
  rw [propagate_eq]
  exact (EntryTable.home?_foldl_settle ..).trans (if_pos ⟨⟨op, hop, e, he, rfl⟩, hlt⟩)

theorem home?_propagate_of_eq (h : s.context.entries.home? e = s.trace.home) :
    s.propagate.context.entries.home? e = s.trace.home := by
  rw [propagate_eq]
  refine (EntryTable.home?_foldl_settle ..).trans ?_
  split
  · rfl
  · exact h

/-- An entry point whose label is not in the trace stays where it is. -/
theorem home?_propagate_of_not_mem
    (h : ∀ op ∈ s.trace.operations, ∀ e', op.labels? = some e' → e'.id ≠ e.id) :
    s.propagate.context.entries.home? e = s.context.entries.home? e := by
  rw [propagate_eq]
  refine (EntryTable.home?_foldl_settle ..).trans (if_neg ?_)
  rintro ⟨⟨op, hop, e', he', hid⟩, -⟩
  exact h op hop e' he' hid

/-- Only entry points that are new get another home. -/
theorem keepsHomes_propagate {t : EntryTable} (h : t.KeepsHomes s.context.entries)
    (hnew : ∀ op ∈ s.trace.operations, ∀ e, op.labels? = some e → t.homes.length ≤ e.id) :
    t.KeepsHomes s.propagate.context.entries where
  length_le := by
    rw [length_propagate]
    exact h.length_le
  home?_eq e he := by
    rw [home?_propagate_of_not_mem, h.home?_eq e he]
    intro op hop e' he' hid
    have := hnew op hop e' he'
    omega

end Submission

theorem Operation.labels?_of_ne {op : Operation} (h : op.opcode ≠ .label) : op.labels? = none := by
  unfold Operation.labels?
  split
  · rename_i hop _
    exact absurd hop h
  · rfl

/-- The units of a context. -/
def Context.units (c : Context) : Units := ⟨c.registry, c.collector⟩

theorem Context.units_congr {c c' : Context} (hregistry : c'.registry = c.registry)
    (hcollector : c'.collector = c.collector) : c'.units = c.units := by
  rw [units, units, hregistry, hcollector]

/--
The registry `r'` is `r` once the operations `ops` in the code of `home` have been recorded: the
unit knows every other unit that the code leads to.
-/
structure Registry.Recorded (entries : EntryTable) (home : UnitHandle) (ops : List Operation)
    (r r' : Registry) : Prop where
  steps : ∀ k, Relation.ReflTransGen Units.Step ⟨r, k⟩ ⟨r', k⟩
  generation : ∀ i, r'.generation i = r.generation i
  others : ∀ h, h ≠ home → r'.get? h = r.get? h
  own : ∀ unit, r.get? home = some unit → ∃ jumps, unit.jumpsTo ⊆ jumps ∧
    r'.get? home = some { unit with jumpsTo := jumps } ∧
    ∀ op ∈ ops, ∀ o, op.leadsTo? entries = some o → o ≠ home → o ∈ jumps

namespace Registry.Recorded

variable {entries : EntryTable} {home : UnitHandle} {op : Operation} {ops : List Operation}
  {r r' r'' : Registry}

/-- Code that leads nowhere needs no record. -/
theorem refl (hops : ∀ op ∈ ops, op.leadsTo? entries = none) (r : Registry) :
    Recorded entries home ops r r where
  steps k := .refl
  generation i := rfl
  others h _ := rfl
  own unit hget := ⟨unit.jumpsTo, List.Subset.refl _, hget, fun op hop o ho => by
    rw [hops op hop] at ho
    cases ho⟩

theorem recordJump (target : UnitHandle) (hop : ∀ o, op.leadsTo? entries = some o → o = target) :
    Recorded entries home [op] r (r.recordJump home target) where
  steps k := by
    refine .single (.change ⟨r, k⟩ home (·.recordJump target) (fun unit => ?_) fun unit hinv => ?_)
    · unfold CompiledUnit.recordJump
      split <;> rfl
    · unfold CompiledUnit.recordJump
      split
      · exact hinv
      · exact hinv
  generation i := by rw [Registry.recordJump, generation_modify]
  others h hne := by rw [Registry.recordJump, get?_modify, if_neg hne]
  own unit hget := by
    refine ⟨(unit.recordJump target).jumpsTo, fun h hh => ?_, ?_, fun o ho t ht _ => ?_⟩
    · exact CompiledUnit.mem_jumpsTo_recordJump.mpr (.inl hh)
    · rw [Registry.recordJump, get?_modify, if_pos rfl, hget, Option.map_some]
      unfold CompiledUnit.recordJump
      split <;> rfl
    · rw [List.mem_singleton.mp ho] at ht
      exact CompiledUnit.mem_jumpsTo_recordJump.mpr (.inr (hop t ht))

theorem cons (h : Recorded entries home [op] r r') (h' : Recorded entries home ops r' r'') :
    Recorded entries home (op :: ops) r r'' where
  steps k := (h.steps k).trans (h'.steps k)
  generation i := (h'.generation i).trans (h.generation i)
  others u hne := (h'.others u hne).trans (h.others u hne)
  own unit hget := by
    obtain ⟨jumps, hsub, hget', hop⟩ := h.own unit hget
    obtain ⟨jumps', hsub', hget'', hops⟩ := h'.own _ hget'
    refine ⟨jumps', List.Subset.trans hsub hsub', hget'', fun o ho t ht hne => ?_⟩
    rcases List.mem_cons.mp ho with rfl | ho
    · exact hsub' (hop o (List.mem_cons_self ..) t ht hne)
    · exact hops o ho t ht hne

end Registry.Recorded

namespace Submission

variable {s s' : Submission} {home : UnitHandle}

private theorem recorded_operation (home : UnitHandle) (c : Context) (op : Operation) :
    Registry.Recorded c.entries home [op] c.registry (recordOperation home c op).registry ∧
      (recordOperation home c op).collector = c.collector ∧
      (recordOperation home c op).entries = c.entries ∧
      (recordOperation home c op).backend = c.backend := by
  have hquiet (h : op.leadsTo? c.entries = none ∨ op.leadsTo? c.entries = some home) :
      Registry.Recorded c.entries home [op] c.registry c.registry := by
    rcases h with hop | hop
    · exact .refl (fun o ho => by rwa [List.mem_singleton.mp ho]) c.registry
    · refine ⟨fun _ => .refl, fun _ => rfl, fun _ _ => rfl, fun unit hget =>
        ⟨unit.jumpsTo, List.Subset.refl _, hget, fun o ho t ht hne => ?_⟩⟩
      rw [List.mem_singleton.mp ho, hop] at ht
      exact absurd (Option.some.inj ht).symm hne
  unfold recordOperation
  split
  · rename_i g hdescr
    exact ⟨hquiet (.inl (by rw [Operation.leadsTo?, hdescr])), rfl, rfl, rfl⟩
  · rename_i target hdescr
    split
    · rename_i heq
      exact ⟨hquiet (.inr (by rw [Operation.leadsTo?, hdescr, heq])), rfl, rfl, rfl⟩
    · refine ⟨.recordJump target fun o ho => ?_, rfl, rfl, rfl⟩
      rw [Operation.leadsTo?, hdescr] at ho
      exact (Option.some.inj ho).symm
  · rename_i e hdescr
    split
    · rename_i owner howner
      split
      · rename_i heq
        refine ⟨hquiet (.inr ?_), rfl, rfl, rfl⟩
        rw [Operation.leadsTo?, hdescr]
        exact howner.trans (congrArg some heq)
      · refine ⟨.recordJump owner fun o ho => ?_, rfl, rfl, rfl⟩
        rw [Operation.leadsTo?, hdescr] at ho
        exact Option.some.inj (ho.symm.trans howner)
    · rename_i hnone
      refine ⟨hquiet (.inl ?_), rfl, rfl, rfl⟩
      rw [Operation.leadsTo?, hdescr]
      exact hnone
  · refine ⟨hquiet (.inl ?_), rfl, rfl, rfl⟩
    unfold Operation.leadsTo?
    split <;> simp_all

private theorem recorded_operations (home : UnitHandle) (c : Context) (ops : List Operation) :
    Registry.Recorded c.entries home ops c.registry (ops.foldl (recordOperation home) c).registry ∧
      (ops.foldl (recordOperation home) c).collector = c.collector ∧
      (ops.foldl (recordOperation home) c).entries = c.entries ∧
      (ops.foldl (recordOperation home) c).backend = c.backend := by
  induction ops generalizing c with
  | nil => exact ⟨.refl (by simp) _, rfl, rfl, rfl⟩
  | cons op ops ih =>
    obtain ⟨hop, hcollector, hentries, hbackend⟩ := recorded_operation home c op
    obtain ⟨hops, hcollector', hentries', hbackend'⟩ := ih (recordOperation home c op)
    rw [hentries] at hops
    exact ⟨hop.cons hops, hcollector'.trans hcollector, hentries'.trans hentries,
      hbackend'.trans hbackend⟩

/-- The code of a trace that is attached to a unit is recorded with the unit. -/
theorem record_of_home (hhome : s.trace.home = some home) :
    (runFrom record s).1 = .ok () ∧
      Registry.Recorded s.context.entries home s.trace.operations s.context.registry
        (runFrom record s).2.context.registry ∧
      (runFrom record s).2.context.collector = s.context.collector ∧
      (runFrom record s).2.context.entries = s.context.entries ∧
      (runFrom record s).2.context.backend = s.context.backend := by
  have hrun : (runFrom record s).1 = .ok () ∧ ∃ quasiImmut trace, (runFrom record s).2 =
      { context := { s.trace.operations.foldl (recordOperation home) s.context with quasiImmut },
        trace } := by
    simp only [record, runFrom_bind, runFrom_get, hhome, runFrom_set]
    exact ⟨trivial, _, _, rfl⟩
  obtain ⟨hok, quasiImmut, trace, heq⟩ := hrun
  obtain ⟨hrecorded, hrest⟩ := recorded_operations home s.context s.trace.operations
  rw [heq]
  exact ⟨hok, hrecorded, hrest⟩

end Submission

end HotLoop
