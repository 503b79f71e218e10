import HotLoop.Proofs.Runs.Actions

/-!
# What collections leave alone

A collection frees exactly the units that have been kept once and that no path of jumps connects
with a young unit. Every jump out of submitted code is recorded with its unit, and no unit forgets
a jump. So the target of a jump is not freed as long as its source stays.
-/

namespace HotLoop.Context

variable {c c' : Context} {a : Action} {actions : List Action} {maxAge : Nat}
  {home o : UnitHandle}

/-- The unit `home` knows of a jump to `o`, and both are alive. -/
def Linked (c : Context) (home o : UnitHandle) : Prop :=
  c.registry.Jumps home o ∧ c.registry.isAlive o = true

/-- The units freed since `c`, and `o` is none of them. -/
def Unfreed (o : UnitHandle) (c c' : Context) : Prop :=
  ∃ freed, c'.backend.freed = c.backend.freed ++ freed ∧ o ∉ freed

theorem Unfreed.trans {d : Context} (h : Unfreed o c c') (h' : Unfreed o c' d) : Unfreed o c d := by
  obtain ⟨freed, heq, hnot⟩ := h
  obtain ⟨freed', heq', hnot'⟩ := h'
  refine ⟨freed ++ freed', by rw [heq', heq, List.append_assoc], fun hmem => ?_⟩
  rcases List.mem_append.mp hmem with hmem | hmem
  · exact hnot hmem
  · exact hnot' hmem

theorem Keeps.linked (h : Keeps c c') (hlinked : Linked c home o) :
    Linked c' home o ∧ Unfreed o c c' := by
  obtain ⟨⟨unit, hget, hmem⟩, halive⟩ := hlinked
  obtain ⟨unit', hget', hsub⟩ := h.units home unit hget
  exact ⟨⟨⟨unit', hget', hsub hmem⟩, h.alive halive⟩, [], by rw [h.freed, List.append_nil],
    List.not_mem_nil⟩

theorem linked_collect (hc : c.units.Consistent maxAge) (hlinked : Linked c home o)
    (hhome : c.units.Registered home) (hhome' : c.nextGeneration.2.units.Registered home) :
    Linked c.nextGeneration.2 home o ∧ Unfreed o c c.nextGeneration.2 := by
  obtain ⟨-, hunits, -, hfreed⟩ := c.nextGeneration_eq
  rw [hunits] at hhome'
  have hspared : home ∉ c.units.freed := by
    intro hmem
    obtain ⟨unit, hget, -⟩ := hhome'
    rw [Units.get?_collect, if_pos hmem] at hget
    cases hget
  -- what a collection spares is needed, and so is what it jumps to
  have hneeded : c.units.Needed maxAge home :=
    Classical.not_not.mp fun hnot => hspared ((Units.mem_freed hc).mpr ⟨hhome, hnot⟩)
  obtain ⟨hjumps, halive⟩ := hlinked
  have ho : o ∉ c.units.freed := by
    intro hmem
    obtain ⟨root, hroot, hpath⟩ := hneeded
    exact ((Units.mem_freed hc).mp hmem).2 ⟨root, hroot, hpath.tail hjumps⟩
  have hget (h : UnitHandle) (hh : h ∉ c.units.freed) :
      c.nextGeneration.2.registry.get? h = c.registry.get? h := by
    have := Units.get?_collect (u := c.units) h
    rwa [← hunits, if_neg hh] at this
  refine ⟨⟨?_, ?_⟩, c.units.freed, hfreed, ho⟩
  · obtain ⟨unit, hunit, hmem⟩ := hjumps
    exact ⟨unit, (hget home hspared).trans hunit, hmem⟩
  · obtain ⟨unit, hunit⟩ := Registry.isAlive_iff.mp halive
    exact Registry.isAlive_iff.mpr ⟨unit, (hget o ho).trans hunit⟩

theorem linked_perform (hc : c.units.Consistent maxAge) (hlinked : Linked c home o)
    (hhome : c.units.Registered home) (hhome' : (a.perform c).units.Registered home) :
    Linked (a.perform c) home o ∧ Unfreed o c (a.perform c) := by
  cases performed hc.wellFormed a with
  | compiled h => exact h.keeps.linked hlinked
  | marked h => exact h.keeps.linked hlinked
  | collected _ heq =>
    rw [heq] at hhome' ⊢
    exact linked_collect hc hlinked hhome hhome'

theorem linked_run (hc : c.units.Consistent maxAge) (hlinked : Linked c home o)
    (hhome : ∀ done, done <+: actions → (c.run done).units.Registered home) :
    Linked (c.run actions) home o ∧ Unfreed o c (c.run actions) := by
  induction actions generalizing c with
  | nil => exact ⟨hlinked, [], (List.append_nil _).symm, List.not_mem_nil⟩
  | cons a actions ih =>
    obtain ⟨hlinked', hunfreed⟩ := linked_perform (a := a) hc hlinked
      (hhome [] (List.nil_prefix ..)) (hhome [a] ⟨actions, rfl⟩)
    obtain ⟨hlinked'', hunfreed'⟩ := ih (consistent_perform hc a) hlinked' fun done hdone =>
      hhome (a :: done) (List.cons_prefix_cons.mpr ⟨rfl, hdone⟩)
    exact ⟨hlinked'', hunfreed.trans hunfreed'⟩

/-- The code that an action has sent is linked with everything it leads to. -/
theorem Performed.linked (h : Performed a c c') {ops : List Operation} {op : Operation}
    (hsends : Sends c c' home ops) (hop : op ∈ ops) (ho : op.leadsTo? c'.entries = some o)
    (hne : o ≠ home) (halive : c'.registry.isAlive o = true) : Linked c' home o := by
  cases h with
  | compiled h =>
    obtain ⟨unit, hget, hlinks⟩ := h.links hsends
    exact ⟨⟨unit, hget, hlinks op hop o ho hne⟩, halive⟩
  | marked h => exact absurd hsends (not_sends_of_sameCode h.code)
  | collected _ heq => exact absurd (heq ▸ hsends) not_sends_nextGeneration

/-- How often a unit is made with the handle `h` on a run from `c` on. -/
def births (h : UnitHandle) : Context → List Action → Nat
  | _, [] => 0
  | c, a :: actions =>
    (!c.registry.isAlive h && (a.perform c).registry.isAlive h).toNat +
      births h (a.perform c) actions

private theorem count_freed_collect (hc : c.units.Consistent maxAge) (h : UnitHandle) :
    c.nextGeneration.2.backend.freed.count h + (c.nextGeneration.2.registry.isAlive h).toNat ≤
      c.backend.freed.count h + (c.registry.isAlive h).toNat := by
  obtain ⟨-, hunits, -, hfreed⟩ := c.nextGeneration_eq
  have hget : c.nextGeneration.2.registry.get? h =
      if h ∈ c.units.freed then none else c.registry.get? h := by
    have hcollect := Units.get?_collect (u := c.units) h
    rwa [← hunits] at hcollect
  rw [hfreed, List.count_append, c.units.nodup_freed.count]
  by_cases hmem : h ∈ c.units.freed
  · obtain ⟨⟨unit, hunit, -⟩, -⟩ := (Units.mem_freed hc).mp hmem
    have halive : c.registry.isAlive h = true := Registry.isAlive_of_get? hunit
    rw [if_pos hmem] at hget ⊢
    have hdead : c.nextGeneration.2.registry.isAlive h = false := by
      rw [Registry.isAlive, hget]
      rfl
    exact Nat.le_of_eq (by rw [halive, hdead]; rfl)
  · rw [if_neg hmem] at hget ⊢
    have hsame : c.nextGeneration.2.registry.isAlive h = c.registry.isAlive h := by
      rw [Registry.isAlive, hget, Registry.isAlive]
    exact Nat.le_of_eq (by rw [hsame, Nat.add_zero])

theorem count_freed_perform (hc : c.units.Consistent maxAge) (a : Action) (h : UnitHandle) :
    (a.perform c).backend.freed.count h + ((a.perform c).registry.isAlive h).toNat ≤
      c.backend.freed.count h + (c.registry.isAlive h).toNat +
        (!c.registry.isAlive h && (a.perform c).registry.isAlive h).toNat := by
  have hmade : ((a.perform c).registry.isAlive h).toNat ≤ (c.registry.isAlive h).toNat +
      (!c.registry.isAlive h && (a.perform c).registry.isAlive h).toNat := by
    cases c.registry.isAlive h with
    | false => simp
    | true => exact Nat.le_trans (Bool.toNat_le _) (Nat.le_add_right ..)
  cases performed hc.wellFormed a with
  | compiled hcompiled =>
    rw [hcompiled.keeps.freed]
    omega
  | marked hmarks =>
    rw [hmarks.keeps.freed]
    omega
  | collected _ heq =>
    have hcollect := count_freed_collect hc h
    rw [heq]
    omega

theorem count_freed_run (hc : c.units.Consistent maxAge) (actions : List Action) (h : UnitHandle) :
    (c.run actions).backend.freed.count h ≤
      c.backend.freed.count h + (c.registry.isAlive h).toNat + births h c actions := by
  induction actions generalizing c with
  | nil => exact Nat.le_trans (Nat.le_add_right ..) (Nat.le_add_right ..)
  | cons a actions ih =>
    have hstep := count_freed_perform hc a h
    have hrest := ih (consistent_perform hc a)
    rw [run_cons, births]
    omega

/--
A collection frees exactly the units that have been kept once and that nothing young needs, each of
them once. Therefore, along every run, what submitted code leads to is not freed as long as the unit
of the code is alive and registered, and no unit is freed twice: a handle is freed at most as often
as a unit has been made with it.
-/
theorem nextGeneration_frees_exactly :
    (∀ maxAge u, Units.Reachable maxAge u →
      (∀ h, h ∈ u.freed ↔ u.Registered h ∧ ¬ u.Needed maxAge h) ∧ u.freed.Nodup ∧
      (∀ h, u.collect.get? h = if h ∈ u.freed then none else u.get? h) ∧
      ∀ c : Context, c.units = u → c.nextGeneration.1 = u.freed.length ∧
        c.nextGeneration.2.units = u.collect ∧
        c.nextGeneration.2.backend.freed = c.backend.freed ++ u.freed) ∧
    (∀ cfg addresses actions,
      Units.Reachable cfg.loopLongevity ((ofConfig cfg addresses).run actions).units) ∧
    (∀ cfg addresses earlier a later home ops op o,
      let c := (ofConfig cfg addresses).run earlier
      let c' := Action.perform a c
      Sends c c' home ops → op ∈ ops → op.leadsTo? c'.entries = some o → o ≠ home →
        c'.registry.isAlive o = true →
        (∀ done, done <+: later → (c'.run done).units.Registered home) →
        (c'.run later).registry.isAlive o = true ∧ Unfreed o c' (c'.run later)) ∧
    ∀ cfg addresses actions h, ((ofConfig cfg addresses).run actions).backend.freed.count h ≤
      births h (ofConfig cfg addresses) actions := by
  refine ⟨?_, reachable_run, ?_, ?_⟩
  · intro maxAge u hu
    refine ⟨fun h => Units.mem_freed hu.consistent, u.nodup_freed, Units.get?_collect, ?_⟩
    rintro c rfl
    obtain ⟨hcount, hunits, -, hfreed⟩ := c.nextGeneration_eq
    exact ⟨hcount, hunits, hfreed⟩
  · intro cfg addresses earlier a later home ops op o c c' hsends hop ho hne halive hhome
    have hc := (reachable_run cfg addresses earlier).consistent
    have hlinked := (performed hc.wellFormed a).linked hsends hop ho hne halive
    obtain ⟨⟨-, halive'⟩, hunfreed⟩ := linked_run (consistent_perform hc a) hlinked hhome
    exact ⟨halive', hunfreed⟩
  · intro cfg addresses actions h
    have hdead : (ofConfig cfg addresses).registry.isAlive h = false := rfl
    have hcount := count_freed_run (reachable_run cfg addresses []).consistent actions h
    rw [run_nil, hdead] at hcount
    simpa [ofConfig] using hcount

/-- A loop that has aged out stays because the code of a younger one calls it. -/
theorem nextGeneration_frees_exactly_calledLoop :
    let x : Var := ⟨0, .int⟩
    let y : Var := ⟨1, .int⟩
    let called : UnitHandle := ⟨0, 1⟩
    let caller : UnitHandle := ⟨1, 1⟩
    let compile (n : Int64) (ops : List Operation) : Action :=
      .loop { driver := default, history := { operations := ops, values := ⟨2⟩ } } ⟨[n]⟩ 0
        [⟨x, .int 0⟩] [.var y] true
    let cfg : Config := { loopLongevity := 2, counterBits := 1 }
    let first := compile 1 [{ opcode := .intAdd, args := [.var x, .int 1], result := some y }]
    let call : Operation := {
      opcode := .callAssembler, args := [.var x], result := some y, descr := some (.cell called) }
    let second := compile 2 [call]
    let later : List Action := [.collect, .keepAlive caller, .collect]
    let c := (ofConfig cfg).run [first]
    let c' := Action.perform second c
    let u := (c'.run [.collect, .keepAlive caller]).units
    (Units.Reachable 2 u ∧ u.collect.collector.alive = [caller] ∧ u.Needed 2 called) ∧
      (∃ ops, Sends c c' caller ops ∧ call ∈ ops ∧ call.leadsTo? c'.entries = some called ∧
        called ≠ caller ∧ c'.registry.isAlive called = true ∧
        ∀ done, done <+: later → (c'.run done).units.Registered caller) ∧
      (c'.run later).registry.isAlive called = true := by
  intro x y called caller compile cfg first call second later c c' u
  have hreachable : Units.Reachable 2 u := by
    have hrun := reachable_run cfg Guard.inOrder ([first] ++ second :: [.collect, .keepAlive caller])
    rwa [run_append, run_cons] at hrun
  have hneeded : u.Needed 2 called := by
    have hfreed := ((nextGeneration_frees_exactly.1 2 u hreachable).1 called).not
    have hnot : called ∉ u.freed := by decide +kernel
    have hregistered : u.Registered called := by decide +kernel
    exact Classical.not_not.mp fun hneeded => hfreed.mp hnot ⟨hregistered, hneeded⟩
  let loop := c'.backend.loops.getLast?.getD default
  have hsends : Sends c c' caller loop.operations :=
    .inl ⟨loop, by decide +kernel, rfl, by decide +kernel, by decide +kernel⟩
  have hcall : call ∈ loop.operations := by decide +kernel
  have hleads : call.leadsTo? c'.entries = some called := rfl
  have hne : called ≠ caller := by decide
  have halive : c'.registry.isAlive called = true := by decide +kernel
  have hregistered : ∀ done, done <+: later → (c'.run done).units.Registered caller := by
    intro done hdone
    obtain rfl | ⟨_, rfl, hdone₁⟩ := List.prefix_cons_iff.mp hdone
    · decide +kernel
    obtain rfl | ⟨_, rfl, hdone₂⟩ := List.prefix_cons_iff.mp hdone₁
    · decide +kernel
    obtain rfl | ⟨_, rfl, hdone₃⟩ := List.prefix_cons_iff.mp hdone₂
    · decide +kernel
    obtain rfl := List.prefix_nil.mp hdone₃
    decide +kernel
  refine ⟨⟨hreachable, by decide +kernel, hneeded⟩,
    ⟨_, hsends, hcall, hleads, hne, halive, hregistered⟩, ?_⟩
  exact (nextGeneration_frees_exactly.2.2.1 cfg Guard.inOrder [first] second later caller _ call
    called hsends hcall hleads hne halive hregistered).1

end HotLoop.Context
