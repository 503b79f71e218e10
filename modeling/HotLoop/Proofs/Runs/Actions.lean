import HotLoop.Proofs.Compile.Effects

/-!
# Runs of a context

What an embedder does with a context, as far as it concerns units: compile calls from sessions of
any shape, writes to quasi-immutable fields, stamps, and collections, in any order. All that else
may happen to a context, such as new options or a backend that rejects the next submission, leaves
the units and their code alone.
-/

namespace HotLoop

/-- A change of a context that leaves its units, their code and their entry points alone. -/
structure Tuning where
  apply : Context → Context
  quiet : ∀ c, Context.Quiet [] c (apply c)

/-- What may be done with a context. -/
inductive Action where
  | loop (session : Session) (key : GreenKey) (start : Nat) (inputs : List InputArg)
      (jumpArgs : List Arg) (avoidUnroll : Bool)
  | trace (session : Session) (resumeKey : ResumeKey)
  | retrace (session : Session) (key : GreenKey) (start : Nat) (inputs : List Var)
      (jumpArgs : List Arg) (resumeKey : ResumeKey)
  | callback (driver : Driver) (greens : List Arg) (reds : List Kind)
  | invalidate (field : Nat)
  | keepAlive (unit : UnitHandle)
  | collect
  | tune (tuning : Tuning)

namespace Action

/-- The context behind an action, whether it succeeds or not. -/
def perform (a : Action) (c : Context) : Context :=
  match a with
  | loop session key start inputs jumpArgs avoidUnroll =>
    (runFrom (Workbench.compileLoop key start inputs jumpArgs avoidUnroll) ⟨c, session⟩).2.context
  | trace session resumeKey => (runFrom (Workbench.compileTrace resumeKey) ⟨c, session⟩).2.context
  | retrace session key start inputs jumpArgs resumeKey =>
    (runFrom (Workbench.compileRetrace key start inputs jumpArgs resumeKey)
      ⟨c, session⟩).2.context
  | callback driver greens reds => (runFrom (Context.compileCallback driver greens reds) c).2
  | invalidate field => (c.invalidate field).2
  | keepAlive unit => c.keepAlive unit
  | collect => c.nextGeneration.2
  | tune tuning => tuning.apply c

/-- The operations that the sessions of an action have recorded. -/
def recorded : Action → List Operation
  | loop session _ start _ _ _ => session.history.operations.drop start
  | trace session _ => session.history.operations
  | retrace session _ start _ _ _ =>
    session.history.operations.drop start ++ session.waitingOperations
  | _ => []

end Action

namespace Context

/-- A run from `c` on. -/
def run (c : Context) (actions : List Action) : Context := actions.foldl (fun c a => a.perform c) c

@[simp] theorem run_nil (c : Context) : c.run [] = c := rfl

@[simp] theorem run_cons (c : Context) (a : Action) (actions : List Action) :
    c.run (a :: actions) = (a.perform c).run actions := rfl

@[simp] theorem run_append (c : Context) (actions actions' : List Action) :
    c.run (actions ++ actions') = (c.run actions).run actions' := List.foldl_append

variable {c c' d : Context} {a : Action} {actions : List Action}

/-- Some units have been stamped or invalidated since `c`, and nothing else has happened to any. -/
structure Marks (c c' : Context) : Prop where
  keeps : Keeps c c'
  entries_eq : ∀ h u', c'.registry.get? h = some u' →
    ∃ u, c.registry.get? h = some u ∧ u'.entries = u.entries
  generation : ∀ i, c'.registry.generation i = c.registry.generation i
  code : c.backend.SameCode c'.backend
  homes : c'.entries = c.entries

namespace Marks

theorem refl (c : Context) : Marks c c :=
  ⟨.refl c, fun _ u hget => ⟨u, hget, rfl⟩, fun _ => rfl, .refl _, rfl⟩

theorem trans (h : Marks c c') (h' : Marks c' d) : Marks c d where
  keeps := h.keeps.trans h'.keeps
  entries_eq u unit hget := by
    obtain ⟨unit', hget', heq⟩ := h'.entries_eq u unit hget
    obtain ⟨unit'', hget'', heq'⟩ := h.entries_eq u unit' hget'
    exact ⟨unit'', hget'', heq.trans heq'⟩
  generation i := (h'.generation i).trans (h.generation i)
  code := h.code.trans h'.code
  homes := h'.homes.trans h.homes

private theorem entries_eq_of_get? {unit : UnitHandle} {f : CompiledUnit → CompiledUnit}
    (hf : ∀ u, (f u).entries = u.entries)
    (h : ∀ h, c'.registry.get? h =
      if h = unit then (c.registry.get? unit).map f else c.registry.get? h) :
    ∀ h u', c'.registry.get? h = some u' →
      ∃ u, c.registry.get? h = some u ∧ u'.entries = u.entries := by
  intro h₁ u' hget
  rw [h] at hget
  split at hget
  · rename_i heq
    obtain ⟨u, hu, rfl⟩ := Option.map_eq_some_iff.mp hget
    exact ⟨u, heq ▸ hu, hf u⟩
  · exact ⟨u', hget, rfl⟩

theorem invalidateUnit (c : Context) (unit : UnitHandle) :
    Marks c (c.modifyUnit unit fun u => { u with invalidated := true }) where
  keeps := .modify c unit _ fun _ => ⟨rfl, rfl, fun _ => rfl⟩
  entries_eq := entries_eq_of_get? (f := fun u => { u with invalidated := true }) (fun _ => rfl)
    fun _ => Registry.get?_modify ..
  generation _ := Registry.generation_modify ..
  code := .refl _
  homes := rfl

theorem keepAlive (c : Context) (unit : UnitHandle) : Marks c (c.keepAlive unit) where
  keeps := .keepAlive c unit
  entries_eq := entries_eq_of_get? (f := fun u => { u with generation := c.collector.current })
    (fun _ => rfl) fun h => Units.get?_keep (u := c.units) h
  generation := Units.generation_keep c.units unit
  code := .refl _
  homes := rfl

theorem invalidateUnits (c : Context) (hs : List UnitHandle) :
    Marks c { c with
      registry := hs.foldl (fun r h => r.modify h fun u => { u with invalidated := true })
        c.registry } := by
  induction hs generalizing c with
  | nil => exact .refl c
  | cons h hs ih => exact (invalidateUnit c h).trans (ih _)

theorem invalidate (c : Context) (field : Nat) : Marks c (c.invalidate field).2 := by
  have h := invalidateUnits c ((c.quasiImmut.of field).filter c.registry.isAlive)
  exact ⟨h.keeps.congr rfl rfl rfl, h.entries_eq, h.generation, .refl _, rfl⟩

end Marks

section Collecting

theorem foldl_free (b : Backend) (hs : List UnitHandle) :
    (hs.foldl Backend.free b).freed = b.freed ++ hs ∧
      (hs.foldl Backend.free b).loops = b.loops ∧
      (hs.foldl Backend.free b).bridges.length ≤ b.bridges.length := by
  induction hs generalizing b with
  | nil => simp
  | cons h hs ih =>
    obtain ⟨hfreed, hloops, hbridges⟩ := ih (b.free h)
    refine ⟨?_, hloops, Nat.le_trans hbridges (List.length_filter_le ..)⟩
    rw [List.foldl_cons, hfreed, Backend.free, List.append_assoc]
    rfl

theorem bridges_foldl_free (b : Backend) (hs : List UnitHandle) :
    ((hs.foldl Backend.free b).bridges).Sublist b.bridges := by
  induction hs generalizing b with
  | nil => exact .refl _
  | cons h hs ih => exact (ih (b.free h)).trans List.filter_sublist

/-- A collection frees the code of what it releases, and counts it. -/
theorem nextGeneration_eq (c : Context) :
    c.nextGeneration.1 = c.units.freed.length ∧ c.nextGeneration.2.units = c.units.collect ∧
      c.nextGeneration.2.entries = c.entries ∧
      c.nextGeneration.2.backend.freed = c.backend.freed ++ c.units.freed :=
  ⟨rfl, rfl, rfl, (foldl_free _ _).1⟩

theorem not_sends_nextGeneration {home : UnitHandle} {ops : List Operation} :
    ¬ Sends c c.nextGeneration.2 home ops := by
  obtain ⟨-, hsame, hle⟩ := foldl_free c.backend c.units.freed
  rintro (⟨loop, -, -, hloops, -⟩ | ⟨bridge, -, -, -, hbridges⟩)
  · have := hsame.symm.trans hloops
    simp at this
  · have hlen : c.nextGeneration.2.backend.bridges.length ≤ c.backend.bridges.length := hle
    rw [hbridges, List.length_append, List.length_singleton] at hlen
    omega

end Collecting

inductive Performed (a : Action) (c c' : Context) : Prop where
  | compiled (h : Compiled a.recorded c c')
  | marked (h : Marks c c')
  | collected (ha : a = .collect) (hc : c' = c.nextGeneration.2)

theorem performed (hc : c.registry.WellFormed) (a : Action) : Performed a c (a.perform c) := by
  cases a with
  | loop session key start inputs jumpArgs avoidUnroll =>
    exact .compiled (Workbench.compileLoop_compiled (w := ⟨c, session⟩) hc rfl).1
  | trace session resumeKey =>
    exact .compiled (Workbench.compileTrace_compiled (w := ⟨c, session⟩) hc rfl)
  | retrace session key start inputs jumpArgs resumeKey =>
    exact .compiled (Workbench.compileRetrace_compiled (w := ⟨c, session⟩) hc rfl)
  | callback driver greens reds => exact .compiled (compileCallback_compiled hc rfl)
  | invalidate field => exact .marked (.invalidate c field)
  | keepAlive unit => exact .marked (.keepAlive c unit)
  | collect => exact .collected rfl rfl
  | tune tuning => exact .compiled (.quiet (tuning.quiet c))

theorem Performed.steps (h : Performed a c c') :
    Relation.ReflTransGen Units.Step c.units c'.units := by
  cases h with
  | compiled h => exact h.keeps.steps
  | marked h => exact h.keeps.steps
  | collected _ hc =>
    rw [hc]
    exact .single (.collect c.units)

variable {maxAge : Nat}

theorem consistent_perform (hc : c.units.Consistent maxAge) (a : Action) :
    (a.perform c).units.Consistent maxAge :=
  hc.steps (performed hc.wellFormed a).steps

theorem reachable_run (cfg : Config) (addresses : Nat → UInt64) (actions : List Action) :
    Units.Reachable cfg.loopLongevity ((ofConfig cfg addresses).run actions).units := by
  have hstart : Units.Reachable cfg.loopLongevity (ofConfig cfg addresses).units := .refl
  generalize ofConfig cfg addresses = c at hstart
  induction actions generalizing c with
  | nil => exact hstart
  | cons a actions ih =>
    exact ih _ (hstart.trans (performed hstart.consistent.wellFormed a).steps)

end Context

end HotLoop
