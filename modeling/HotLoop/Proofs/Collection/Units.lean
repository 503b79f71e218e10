import HotLoop.Proofs.Collection.Reach

/-!
# What a collection frees

Units come and go by a few kinds of steps. In every state that these can lead to, the units that the
collector remembers are all that a collection has to start from: they are alive and have been kept
once, and no valid unit that is still young is missing. So a collection frees exactly those units,
among the ones that have been kept once, that no path of jumps connects with a young unit.
-/

namespace HotLoop

/-- Units and the generations of their last use. -/
structure Units where
  registry : Registry := {}
  collector : Collector

namespace Units

def ofMaxAge (maxAge : Nat) : Units := { collector := .ofMaxAge maxAge }

/-- The unit of a handle, if it is alive. -/
def get? (u : Units) (h : UnitHandle) : Option CompiledUnit := u.registry.get? h

def keep (u : Units) (h : UnitHandle) : Units where
  registry := (u.collector.keep u.registry h).2
  collector := (u.collector.keep u.registry h).1

/-- The units that the next collection frees. -/
def freed (u : Units) : List UnitHandle := (u.collector.nextGeneration u.registry).1

/-- Goes on to the next generation. -/
def collect (u : Units) : Units where
  registry := (u.collector.nextGeneration u.registry).2.2
  collector := (u.collector.nextGeneration u.registry).2.1

inductive Step : Units → Units → Prop where
  | make (u : Units) (driver : Nat) : Step u { u with registry := (u.registry.make driver).2 }
  /-- Anything may happen to a unit, but its stamp stays and it does not become valid again. -/
  | change (u : Units) (h : UnitHandle) (f : CompiledUnit → CompiledUnit)
      (hstamp : ∀ unit, (f unit).generation = unit.generation)
      (hinvalid : ∀ unit, unit.invalidated = true → (f unit).invalidated = true) :
      Step u { u with registry := u.registry.modify h f }
  | keep (u : Units) (h : UnitHandle) : Step u (u.keep h)
  | discard (u : Units) (h : UnitHandle) (hunused : ∀ unit, u.get? h = some unit →
      unit.generation = 0) : Step u { u with registry := u.registry.drop h }
  | collect (u : Units) : Step u u.collect

/-- Steps from nothing. -/
def Reachable (maxAge : Nat) (u : Units) : Prop := Relation.ReflTransGen Step (ofMaxAge maxAge) u

/-- A unit that is alive and has been kept once. -/
def Registered (u : Units) (h : UnitHandle) : Prop :=
  ∃ unit, u.get? h = some unit ∧ 0 < unit.generation

instance (u : Units) (h : UnitHandle) : Decidable (u.Registered h) :=
  decidable_of_iff ((u.get? h).any fun unit => decide (0 < unit.generation)) (by
    simp [Registered, Option.any_eq_true])

/-- A unit that the next collection spares for its own sake. -/
def Young (maxAge : Nat) (u : Units) (h : UnitHandle) : Prop :=
  ∃ unit, u.get? h = some unit ∧ unit.invalidated = false ∧ 0 < unit.generation ∧
    u.collector.current + 1 < unit.generation + max maxAge 1

/-- Jumps lead to the unit from one that is spared for its own sake. -/
def Needed (maxAge : Nat) (u : Units) (h : UnitHandle) : Prop :=
  ∃ root, u.Young maxAge root ∧ Relation.ReflTransGen u.registry.Jumps root h

structure Consistent (maxAge : Nat) (u : Units) : Prop where
  wellFormed : u.registry.WellFormed
  limit : u.collector.maxAge = max maxAge 1
  started : 0 < u.collector.current
  stamped : ∀ h ∈ u.collector.alive, u.Registered h
  remembered : ∀ h unit, u.get? h = some unit → unit.invalidated = false → 0 < unit.generation →
    u.collector.oldestKept ≤ unit.generation → h ∈ u.collector.alive

section Steps

variable {maxAge : Nat} {u : Units} {h : UnitHandle}

theorem consistent_ofMaxAge : Consistent maxAge (ofMaxAge maxAge) where
  wellFormed := Registry.wellFormed_empty
  limit := rfl
  started := Nat.one_pos
  stamped h hh := by cases hh
  remembered h unit hget := by cases hget

theorem Consistent.make (hu : u.Consistent maxAge) (driver : Nat) :
    Consistent maxAge { u with registry := (u.registry.make driver).2 } where
  wellFormed := hu.wellFormed.make
  limit := hu.limit
  started := hu.started
  stamped h hh := by
    obtain ⟨unit, hget, hpos⟩ := hu.stamped h hh
    refine ⟨unit, ?_, hpos⟩
    have hne : h ≠ (u.registry.make driver).1 := by
      intro heq
      have hnone : u.get? h = none := heq ▸ hu.wellFormed.get?_make_fst
      rw [hnone] at hget
      cases hget
    exact (hu.wellFormed.get?_make h).trans ((if_neg hne).trans hget)
  remembered h unit hget hvalid hpos hyoung := by
    have hget := (hu.wellFormed.get?_make h).symm.trans hget
    split at hget
    · cases hget
      exact absurd hpos (Nat.lt_irrefl 0)
    · exact hu.remembered h unit hget hvalid hpos hyoung

theorem Consistent.change (hu : u.Consistent maxAge) {f : CompiledUnit → CompiledUnit}
    (hstamp : ∀ unit, (f unit).generation = unit.generation)
    (hinvalid : ∀ unit, unit.invalidated = true → (f unit).invalidated = true) :
    Consistent maxAge { u with registry := u.registry.modify h f } where
  wellFormed := hu.wellFormed.modify
  limit := hu.limit
  started := hu.started
  stamped h' hh := by
    obtain ⟨unit, hget, hpos⟩ := hu.stamped h' hh
    have hget : u.registry.get? h' = some unit := hget
    by_cases heq : h' = h
    · refine ⟨f unit, ?_, by rwa [hstamp]⟩
      rw [get?, Registry.get?_modify, if_pos heq, ← heq, hget, Option.map_some]
    · refine ⟨unit, ?_, hpos⟩
      rw [get?, Registry.get?_modify, if_neg heq, hget]
  remembered h' unit' hget hvalid hpos hyoung := by
    rw [get?, Registry.get?_modify] at hget
    split at hget
    · rename_i heq
      obtain ⟨unit, hunit, rfl⟩ := Option.map_eq_some_iff.mp hget
      rw [hstamp] at hpos hyoung
      refine heq ▸ hu.remembered h unit hunit ?_ hpos hyoung
      cases hinv : unit.invalidated with
      | false => rfl
      | true => rw [hinvalid unit hinv] at hvalid; cases hvalid
    · exact hu.remembered h' unit' hget hvalid hpos hyoung

/-- A unit is stamped with the generation that runs, and nothing else changes. -/
theorem get?_keep (h' : UnitHandle) :
    (u.keep h).get? h' = if h' = h then
      (u.get? h).map fun unit => { unit with generation := u.collector.current } else u.get? h' := by
  simp only [get?, keep, Collector.keep]
  cases hget : u.registry.get? h with
  | none =>
    by_cases heq : h' = h
    · rw [if_pos heq, heq, Option.map_none]
      exact hget
    · rw [if_neg heq]
  | some unit =>
    by_cases hgen : unit.generation = u.collector.current
    · simp only [hgen, ↓reduceIte]
      by_cases heq : h' = h
      · rw [if_pos heq, heq, hget, Option.map_some, ← hgen]
      · rw [if_neg heq]
    · simp only [hgen, ↓reduceIte, Registry.get?_modify, hget]

theorem current_keep : (u.keep h).collector.current = u.collector.current ∧
    (u.keep h).collector.maxAge = u.collector.maxAge := by
  simp only [keep, Collector.keep]
  cases u.registry.get? h with
  | none => exact ⟨rfl, rfl⟩
  | some unit =>
    dsimp only
    split <;> exact ⟨rfl, rfl⟩

theorem mem_alive_keep {h' : UnitHandle} : h' ∈ (u.keep h).collector.alive ↔
    h' ∈ u.collector.alive ∨ h' = h ∧ ∃ unit, u.get? h = some unit ∧
      unit.generation ≠ u.collector.current := by
  simp only [get?, keep, Collector.keep]
  cases hget : u.registry.get? h with
  | none => simp
  | some unit =>
    by_cases hgen : unit.generation = u.collector.current
    · simp [hgen]
    · by_cases hmem : u.collector.alive.contains h
      · have hin : h ∈ u.collector.alive := List.contains_iff_mem.mp hmem
        simp only [hgen, ↓reduceIte, hmem]
        constructor
        · exact .inl
        · rintro (hh | ⟨rfl, -⟩)
          · exact hh
          · exact hin
      · simp only [hgen, ↓reduceIte, hmem, Bool.false_eq_true, List.mem_cons,
          Option.some.injEq, exists_eq_left', ne_eq, not_false_eq_true, and_true]
        exact or_comm

theorem wellFormed_keep (hu : u.registry.WellFormed) : (u.keep h).registry.WellFormed := by
  simp only [keep, Collector.keep]
  cases u.registry.get? h with
  | none => exact hu
  | some unit =>
    dsimp only
    split
    · exact hu
    · exact hu.modify

theorem Consistent.keep (hu : u.Consistent maxAge) (h : UnitHandle) :
    Consistent maxAge (u.keep h) where
  wellFormed := wellFormed_keep hu.wellFormed
  limit := current_keep.2.trans hu.limit
  started := by
    rw [current_keep.1]
    exact hu.started
  stamped h' hh := by
    rw [Registered, get?_keep]
    rcases mem_alive_keep.mp hh with hh | ⟨rfl, unit, hget, -⟩
    · obtain ⟨unit, hget, hpos⟩ := hu.stamped h' hh
      split
      · rename_i heq
        exact ⟨_, by rw [← heq, hget, Option.map_some], hu.started⟩
      · exact ⟨unit, hget, hpos⟩
    · exact ⟨_, by rw [if_pos rfl, hget, Option.map_some], hu.started⟩
  remembered h' unit' hget hvalid hpos hyoung := by
    rw [get?_keep] at hget
    rw [Collector.oldestKept, current_keep.1, current_keep.2] at hyoung
    rw [mem_alive_keep]
    split at hget
    · rename_i heq
      obtain ⟨unit, hunit, rfl⟩ := Option.map_eq_some_iff.mp hget
      by_cases hgen : unit.generation = u.collector.current
      · -- the unit has been stamped in this generation already
        refine .inl (heq ▸ hu.remembered h unit hunit hvalid ?_ ?_)
        · rw [hgen]
          exact hu.started
        · rw [hgen]
          exact hyoung
      · exact .inr ⟨heq, unit, hunit, hgen⟩
    · exact .inl (hu.remembered h' unit' hget hvalid hpos hyoung)

theorem Consistent.discard (hu : u.Consistent maxAge)
    (hunused : ∀ unit, u.get? h = some unit → unit.generation = 0) :
    Consistent maxAge { u with registry := u.registry.drop h } where
  wellFormed := hu.wellFormed.drop
  limit := hu.limit
  started := hu.started
  stamped h' hh := by
    obtain ⟨unit, hget, hpos⟩ := hu.stamped h' hh
    refine ⟨unit, ?_, hpos⟩
    have hne : h' ≠ h := by
      rintro rfl
      exact absurd (hunused unit hget) (Nat.ne_of_gt hpos)
    rw [get?, Registry.get?_drop, if_neg hne]
    exact hget
  remembered h' unit hget hvalid hpos hyoung := by
    rw [get?, Registry.get?_drop] at hget
    split at hget
    · cases hget
    · exact hu.remembered h' unit hget hvalid hpos hyoung

end Steps

section Collecting

variable {maxAge : Nat} {u : Units} {h : UnitHandle}

theorem mem_alive_collect (hu : u.Consistent maxAge) :
    h ∈ u.collect.collector.alive ↔ u.Young maxAge h := by
  have hoff (unit : CompiledUnit) : u.collector.current + 1 + 1 - u.collector.maxAge ≤
      unit.generation ↔ u.collector.current + 1 < unit.generation + max maxAge 1 := by
    rw [hu.limit]
    omega
  simp only [collect, Collector.nextGeneration, List.mem_filter, Collector.isYoung,
    Collector.oldestKept, Young]
  constructor
  · rintro ⟨hmem, hyoung⟩
    obtain ⟨unit, hget, hpos⟩ := hu.stamped h hmem
    have hget' : u.registry.get? h = some unit := hget
    simp only [hget', Bool.and_eq_true, decide_eq_true_eq, Bool.not_eq_true', hoff] at hyoung
    exact ⟨unit, hget, hyoung.2, hpos, hyoung.1⟩
  · rintro ⟨unit, hget, hvalid, hpos, hyoung⟩
    have hget' : u.registry.get? h = some unit := hget
    refine ⟨hu.remembered h unit hget hvalid hpos ?_, ?_⟩
    · rw [Collector.oldestKept, hu.limit]
      omega
    · simp only [hget', Bool.and_eq_true, decide_eq_true_eq, Bool.not_eq_true', hoff]
      exact ⟨hyoung, hvalid⟩

theorem mem_freed (hu : u.Consistent maxAge) :
    h ∈ u.freed ↔ u.Registered h ∧ ¬ u.Needed maxAge h := by
  have hneeded : h ∈ Collector.reach u.registry (u.registry.size + 1) u.collect.collector.alive ↔
      u.Needed maxAge h := by
    simp only [Collector.mem_reach, mem_alive_collect hu, Needed]
  have hfreed : h ∈ u.freed ↔ h ∈ u.registry.liveHandles ∧
      (((u.registry.get? h).map fun unit => decide (0 < unit.generation)).getD false &&
        !(Collector.reach u.registry (u.registry.size + 1)
          u.collect.collector.alive).contains h) = true := List.mem_filter
  rw [hfreed, Registry.mem_liveHandles]
  constructor
  · rintro ⟨⟨unit, hget⟩, hold⟩
    simp only [hget, Option.map_some, Option.getD_some, Bool.and_eq_true, decide_eq_true_eq,
      Bool.not_eq_true', List.contains_eq_mem, decide_eq_false_iff_not, hneeded] at hold
    exact ⟨⟨unit, hget, hold.1⟩, hold.2⟩
  · rintro ⟨⟨unit, hget, hpos⟩, hnot⟩
    have hget' : u.registry.get? h = some unit := hget
    refine ⟨⟨unit, hget⟩, ?_⟩
    simp only [hget', Option.map_some, Option.getD_some, Bool.and_eq_true, decide_eq_true_eq,
      Bool.not_eq_true', List.contains_eq_mem, decide_eq_false_iff_not, hneeded]
    exact ⟨hpos, hnot⟩

theorem nodup_freed (u : Units) : u.freed.Nodup := (u.registry.nodup_liveHandles).filter _

theorem get?_collect (h : UnitHandle) :
    u.collect.get? h = if h ∈ u.freed then none else u.get? h :=
  Registry.get?_foldl_drop _ h

theorem Consistent.collect (hu : u.Consistent maxAge) : Consistent maxAge u.collect where
  wellFormed := hu.wellFormed.foldl_drop _
  limit := hu.limit
  started := Nat.succ_pos _
  stamped h hh := by
    have hyoung := (mem_alive_collect hu).mp hh
    have hneeded : u.Needed maxAge h := ⟨h, hyoung, .refl⟩
    obtain ⟨unit, hget, -, hpos, -⟩ := hyoung
    have hnot : h ∉ u.freed := by
      intro hmem
      exact ((mem_freed hu).mp hmem).2 hneeded
    exact ⟨unit, by rw [get?_collect, if_neg hnot, hget], hpos⟩
  remembered h unit hget hvalid hpos hyoung := by
    rw [get?_collect] at hget
    split at hget
    · cases hget
    · refine (mem_alive_collect hu).mpr ⟨unit, hget, hvalid, hpos, ?_⟩
      have hold : u.collector.current + 1 + 1 - u.collector.maxAge ≤ unit.generation := hyoung
      rw [hu.limit] at hold
      omega

end Collecting

variable {maxAge : Nat} {u u' : Units}

theorem Consistent.step (hu : u.Consistent maxAge) (h : Step u u') : Consistent maxAge u' := by
  cases h with
  | make driver => exact hu.make driver
  | change h f hstamp hinvalid => exact hu.change hstamp hinvalid
  | keep h => exact hu.keep h
  | discard h hunused => exact hu.discard hunused
  | collect => exact hu.collect

theorem Consistent.steps (hu : u.Consistent maxAge) (h : Relation.ReflTransGen Step u u') :
    Consistent maxAge u' := by
  induction h with
  | refl => exact hu
  | tail _ hstep ih => exact ih.step hstep

theorem Reachable.consistent (hu : Reachable maxAge u) : Consistent maxAge u :=
  consistent_ofMaxAge.steps hu

end Units

end HotLoop
