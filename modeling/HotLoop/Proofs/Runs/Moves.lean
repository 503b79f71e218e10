import HotLoop.Proofs.Compile.Reliance
import HotLoop.Proofs.Runs.Actions

/-!
# Runs with units of one's own

Besides what an embedder does with a context, it may make units and release them, and slots are used
again for the units that are made next. Collections and releases are the only moves after which a
unit is gone. A slot whose unit is gone is in another generation, and it has to go through all the
others before the handle of that unit is good again.
-/

namespace HotLoop

/--
A bridge that waits has been left by a compile call, and what is done besides compiling concerns no
quasi-immutable field.
-/
def Action.Proper : Action → Prop
  | retrace session _ _ _ _ _ => Workbench.WaitsSince session
  | tune tuning => ∀ c, (tuning.apply c).quasiImmut = c.quasiImmut
  | _ => True

/-- What may be done with a context and its units. -/
inductive Move where
  | act (action : Action) (proper : action.Proper)
  | simpleLoop (session : Session) (key : GreenKey) (inputs : List InputArg)
      (ops : List Operation) (jumpArgs : List Arg) (opts : OptSet)
  | make (driver : Driver)
  | release (unit : UnitHandle)

/-- The context behind a move. -/
def Move.perform (m : Move) (c : Context) : Context :=
  match m with
  | act action _ => action.perform c
  | simpleLoop session key inputs ops jumpArgs opts =>
    (runFrom (Workbench.compileSimpleLoop key inputs ops jumpArgs opts) ⟨c, session⟩).2.context
  | make driver => (c.makeUnit driver).2
  | release unit => c.releaseUnit unit

namespace Context

/-- The context behind some moves. -/
def follow (c : Context) (moves : List Move) : Context := moves.foldl (fun c m => m.perform c) c

@[simp] theorem follow_nil (c : Context) : c.follow [] = c := rfl

@[simp] theorem follow_cons (c : Context) (m : Move) (moves : List Move) :
    c.follow (m :: moves) = (m.perform c).follow moves := rfl

@[simp] theorem follow_append (c : Context) (moves moves' : List Move) :
    c.follow (moves ++ moves') = (c.follow moves).follow moves' := List.foldl_append

variable {c c' : Context} {recorded : List Operation} {a : Action} {h : UnitHandle}

theorem Compiled.turns (hcompiled : Compiled recorded c c') : c.registry.Turns c'.registry := by
  refine .of_isAlive (fun i => ?_) fun h => hcompiled.keeps.alive
  have hlist (d : Context) (listed : Option (UnitHandle × EntryPoint)) :
      (d.list listed).registry.generation i = d.registry.generation i := by
    cases listed with
    | none => rfl
    | some l => exact Registry.generation_modify ..
  cases hcompiled with
  | quiet h => exact .inl (by rw [h.registry])
  | unfinished unit h => exact .inl (h.generation i)
  | released unit d h h' =>
    rw [h'.registry, ← h.generation]
    exact (Registry.Turns.drop d.registry unit).generation i
  | submitted listed home ops d h hrecorded _ _ _ =>
    rw [hrecorded.generation]
    cases h with
    | loop b loop h _ _ hregistry _ _ _ =>
      rw [hregistry, hlist, ← h.generation]
      exact .inl (Units.generation_keep b.units home i)
    | bridge b bridge h _ _ _ hregistry _ _ _ =>
      rw [hregistry, hlist, h.registry]
      exact .inl rfl

theorem Performed.turns (h : Performed a c c') : c.registry.Turns c'.registry := by
  cases h with
  | compiled h => exact h.turns
  | marked h => exact .of_isAlive (fun i => .inl (h.generation i)) fun _ => h.keeps.alive
  | collected _ hc =>
    rw [hc]
    exact c.units.turns_collect

/-- A move leaves the registry well-formed, and each slot goes on by one generation at most. -/
theorem wellFormed_turns_perform (hc : c.registry.WellFormed) (m : Move) :
    (m.perform c).registry.WellFormed ∧ c.registry.Turns (m.perform c).registry := by
  cases m with
  | act action _ =>
    have hperformed := performed hc action
    exact ⟨hc.steps hperformed.steps, hperformed.turns⟩
  | simpleLoop session key inputs ops jumpArgs opts =>
    have hcompiled : Context.Compiled ops c (Move.perform (.simpleLoop session key inputs ops
        jumpArgs opts) c) :=
      (Workbench.compileSimpleLoop_compiled (w := ⟨c, session⟩) hc rfl).1
    exact ⟨hc.steps hcompiled.keeps.steps, hcompiled.turns⟩
  | make driver =>
    refine ⟨hc.make, .of_isAlive (fun i => .inl (Registry.generation_make ..)) fun h hh => ?_⟩
    have hget : (c.makeUnit driver).2.registry.get? h =
        if h = (c.makeUnit driver).1 then some { driver := driver.id } else c.registry.get? h :=
      hc.get?_make h
    rw [Registry.isAlive] at hh ⊢
    change ((c.makeUnit driver).2.registry.get? h).isSome = true
    rw [hget]
    split
    · rfl
    · exact hh
  | release unit => exact ⟨hc.drop, .drop c.registry unit⟩

theorem wellFormed_follow (hc : c.registry.WellFormed) (moves : List Move) :
    (c.follow moves).registry.WellFormed := by
  induction moves generalizing c with
  | nil => exact hc
  | cons m moves ih => exact ih (wellFormed_turns_perform hc m).1

section Wrapping

/-- How often a slot goes on to another generation while the moves are made. -/
def slotTurns (i : Nat) : Context → List Move → Nat
  | _, [] => 0
  | c, m :: moves =>
    (if (m.perform c).registry.generation i = c.registry.generation i then 0 else 1) +
      slotTurns i (m.perform c) moves

theorem slotTurns_append (i : Nat) (c : Context) (moves moves' : List Move) :
    slotTurns i c (moves ++ moves') =
      slotTurns i c moves + slotTurns i (c.follow moves) moves' := by
  induction moves generalizing c with
  | nil => simp [slotTurns]
  | cons m moves ih => rw [List.cons_append, slotTurns, ih, slotTurns, follow_cons, Nat.add_assoc]

theorem distance_le_slotTurns (hc : c.registry.WellFormed) (goal i : Nat) (moves : List Move) :
    UnitSlot.distance goal (c.registry.generation i) ≤
      UnitSlot.distance goal ((c.follow moves).registry.generation i) + slotTurns i c moves := by
  induction moves generalizing c with
  | nil => exact Nat.le_refl _
  | cons m moves ih =>
    obtain ⟨hc', hturns⟩ := wellFormed_turns_perform hc m
    have hrest := ih hc'
    have hnear := UnitSlot.distance_le_nextGeneration goal (c.registry.generation i)
    rw [follow_cons, slotTurns]
    rcases hturns.generation i with hsame | hnext
    · rw [hsame] at hrest
      omega
    · rw [hnext] at hrest ⊢
      split
      · rename_i hstay
        rw [hstay] at hrest
        omega
      · omega

theorem le_slotTurns_of_gone (hc : c.registry.WellFormed) {moves : List Move}
    (halive : c.registry.isAlive h = true) (hgone : (c.follow moves).registry.isAlive h = false) :
    UInt32.size - 1 ≤
      UnitSlot.distance h.generation ((c.follow moves).registry.generation h.index) +
        slotTurns h.index c moves := by
  induction moves generalizing c with
  | nil =>
    rw [follow_nil, halive] at hgone
    cases hgone
  | cons m moves ih =>
    obtain ⟨hc', hturns⟩ := wellFormed_turns_perform hc m
    rw [slotTurns]
    cases hafter : (m.perform c).registry.isAlive h with
    | true =>
      have hrest := ih hc' hafter hgone
      rw [follow_cons]
      omega
    | false =>
      have hnext := hturns.gone h halive hafter
      have hrest := distance_le_slotTurns hc' h.generation h.index moves
      have hround := UnitSlot.le_distance_nextGeneration h.generation
      have hnew : (m.perform c).registry.generation h.index ≠ c.registry.generation h.index := by
        rw [hnext, Registry.generation_of_isAlive halive]
        unfold UnitSlot.nextGeneration
        have : UInt32.size = 4294967296 := rfl
        split <;> omega
      rw [if_neg hnew, follow_cons]
      rw [hnext] at hrest
      omega

/--
A handle that is good both before and after some moves has been good all the time, or its slot has
gone through all generations.
-/
theorem isAlive_of_slotTurns_lt (hc : c.registry.WellFormed) {moves done : List Move}
    (hbefore : c.registry.isAlive h = true) (hafter : (c.follow moves).registry.isAlive h = true)
    (hfew : slotTurns h.index c moves < UInt32.size - 1) (hdone : done <+: moves) :
    (c.follow done).registry.isAlive h = true := by
  obtain ⟨rest, rfl⟩ := hdone
  cases hgone : (c.follow done).registry.isAlive h with
  | true => rfl
  | false =>
    have hround := le_slotTurns_of_gone hc hbefore hgone
    have hback := distance_le_slotTurns (wellFormed_follow hc done) h.generation h.index rest
    rw [← follow_append, Registry.generation_of_isAlive hafter, UnitSlot.distance_self] at hback
    rw [slotTurns_append] at hfew
    omega

end Wrapping

end Context

end HotLoop
