import HotLoop.Proofs.Collection.Units
import Mathlib.Data.List.Nodup

/-!
# The generations of a slot

A slot moves on to its next generation when its unit is dropped, and at no other time. Generations
are 32-bit words that skip zero, so the handle of a unit that was dropped becomes good again only
after its slot has gone through all of them.
-/

namespace HotLoop

namespace UnitSlot

/-- How often a slot in generation `g` has to move on before it is in generation `goal`. -/
def distance (goal g : Nat) : Nat := if g ≤ goal then goal - g else goal + (UInt32.size - 1) - g

theorem distance_self (g : Nat) : distance g g = 0 := by simp [distance]

theorem distance_le_nextGeneration (goal g : Nat) :
    distance goal g ≤ distance goal (nextGeneration g) + 1 := by
  simp only [distance, nextGeneration, UInt32.size]
  split <;> split <;> split <;> omega

theorem le_distance_nextGeneration (g : Nat) :
    UInt32.size - 1 ≤ distance g (nextGeneration g) + 1 := by
  simp only [distance, nextGeneration, UInt32.size]
  split <;> split <;> omega

end UnitSlot

namespace Registry

/-- The generation of a slot. One that has not been in use will start with the first. -/
def generation (r : Registry) (i : Nat) : Nat := ((r.slots[i]?).map (·.generation)).getD 1

section Slots

variable {r : Registry} {h : UnitHandle} {hs : List UnitHandle} {i : Nat}

theorem generation_of_isAlive (halive : r.isAlive h = true) :
    r.generation h.index = h.generation := by
  obtain ⟨unit, hget⟩ := isAlive_iff.mp halive
  rw [generation, get?_eq_some.mp hget]
  rfl

@[simp] theorem generation_make (r : Registry) (driver i : Nat) :
    (r.make driver).2.generation i = r.generation i := by
  obtain ⟨slots, free⟩ := r
  cases free with
  | cons index free =>
    simp only [make, generation, List.getElem?_set]
    by_cases hi : index = i
    · subst hi
      cases hslot : slots[index]? with
      | none => simp [Nat.not_lt.mpr (List.getElem?_eq_none_iff.mp hslot)]
      | some slot => simp [(List.getElem?_eq_some_iff.mp hslot).1]
    · simp [hi]
  | nil =>
    simp only [make, generation, List.getElem?_append]
    by_cases hi : i < slots.length
    · simp [hi]
    · rw [if_neg hi, List.getElem?_eq_none (Nat.not_lt.mp hi)]
      cases i - slots.length with
      | zero => rfl
      | succ n => rfl

@[simp] theorem generation_modify (r : Registry) (h : UnitHandle)
    (f : CompiledUnit → CompiledUnit) (i : Nat) :
    (r.modify h f).generation i = r.generation i := by
  simp only [modify, generation, List.getElem?_modify]
  cases r.slots[i]? with
  | none => rfl
  | some slot =>
    simp only [Option.map_eq_map, Option.map_some, Option.getD_some]
    split
    · split <;> rfl
    · rfl

theorem generation_drop : (r.drop h).generation i =
    if r.isAlive h = true ∧ h.index = i then UnitSlot.nextGeneration (r.generation i)
    else r.generation i := by
  unfold drop release
  cases hget : r.get? h with
  | none => simp [isAlive, hget]
  | some unit =>
    have hslot := get?_eq_some.mp hget
    have hlt : h.index < r.slots.length := (List.getElem?_eq_some_iff.mp hslot).1
    simp only [generation, List.getElem?_set, isAlive, hget, Option.isSome_some, true_and]
    by_cases hi : h.index = i
    · subst hi
      simp only [↓reduceIte, hlt, hslot]
      rfl
    · simp [hi]

private theorem isAlive_drop (h' : UnitHandle) (hne : h' ≠ h) :
    (r.drop h).isAlive h' = r.isAlive h' := by
  rw [isAlive, get?_drop, if_neg hne, isAlive]

theorem generation_foldl_drop (hnodup : (hs.map (·.index)).Nodup) (i : Nat) :
    (hs.foldl Registry.drop r).generation i =
      if ∃ h ∈ hs, r.isAlive h = true ∧ h.index = i then UnitSlot.nextGeneration (r.generation i)
      else r.generation i := by
  induction hs generalizing r with
  | nil => simp
  | cons h hs ih =>
    obtain ⟨hnew, hnodup⟩ := List.nodup_cons.mp hnodup
    have hother (h' : UnitHandle) (hmem : h' ∈ hs) : h'.index ≠ h.index := fun heq =>
      hnew (List.mem_map.mpr ⟨h', hmem, heq⟩)
    rw [List.foldl_cons, ih hnodup, generation_drop]
    by_cases hi : h.index = i
    · have hrest (r' : Registry) : ¬ ∃ h' ∈ hs, r'.isAlive h' = true ∧ h'.index = i := by
        rintro ⟨h', hmem, -, heq⟩
        exact hother h' hmem (heq.trans hi.symm)
      simp only [List.exists_mem_cons_iff, hrest, or_false, hi, and_true, if_false]
    · have halive (h' : UnitHandle) (hmem : h' ∈ hs) :
          (r.drop h).isAlive h' = r.isAlive h' :=
        isAlive_drop h' fun heq => hother h' hmem (congrArg _ heq)
      have hsame : (∃ h' ∈ hs, (r.drop h).isAlive h' = true ∧ h'.index = i) ↔
          ∃ h' ∈ hs, r.isAlive h' = true ∧ h'.index = i :=
        exists_congr fun h' => and_congr_right fun hmem => by rw [halive h' hmem]
      simp only [List.exists_mem_cons_iff, hi, and_false, false_or, if_false, hsame]

end Slots

/-- No slot has moved on by more than one generation, and one whose unit is gone has moved on. -/
structure Turns (r r' : Registry) : Prop where
  generation : ∀ i, r'.generation i = r.generation i ∨
    r'.generation i = UnitSlot.nextGeneration (r.generation i)
  gone : ∀ h, r.isAlive h = true → r'.isAlive h = false →
    r'.generation h.index = UnitSlot.nextGeneration h.generation

namespace Turns

variable {r r' : Registry} {hs : List UnitHandle}

theorem of_isAlive (hgeneration : ∀ i, r'.generation i = r.generation i ∨
      r'.generation i = UnitSlot.nextGeneration (r.generation i))
    (halive : ∀ h, r.isAlive h = true → r'.isAlive h = true) : Turns r r' where
  generation := hgeneration
  gone h hbefore hafter := by
    rw [halive h hbefore] at hafter
    cases hafter

theorem foldl_drop (hnodup : (hs.map (·.index)).Nodup) : Turns r (hs.foldl Registry.drop r) where
  generation i := by
    rw [generation_foldl_drop hnodup]
    split
    · exact .inr rfl
    · exact .inl rfl
  gone h hbefore hafter := by
    have hmem : h ∈ hs := by
      by_contra hnot
      rw [isAlive, get?_foldl_drop, if_neg hnot, ← isAlive, hbefore] at hafter
      cases hafter
    rw [generation_foldl_drop hnodup, if_pos ⟨h, hmem, hbefore, rfl⟩, generation_of_isAlive hbefore]

theorem drop (r : Registry) (h : UnitHandle) : Turns r (r.drop h) := by
  have hone : Turns r ([h].foldl Registry.drop r) := foldl_drop (List.nodup_singleton _)
  exact hone

end Turns

end Registry

theorem Units.turns_collect (u : Units) : u.registry.Turns u.collect.registry := by
  have hsub : List.Sublist u.freed u.registry.liveHandles := List.filter_sublist
  exact .foldl_drop (u.registry.nodup_index_liveHandles.sublist (hsub.map _))

theorem Units.generation_keep (u : Units) (h : UnitHandle) (i : Nat) :
    (u.keep h).registry.generation i = u.registry.generation i := by
  simp only [keep, Collector.keep]
  split
  · rfl
  · split
    · rfl
    · exact Registry.generation_modify ..

namespace Registry.WellFormed

variable {u u' : Units}

theorem step (hu : u.registry.WellFormed) (h : Units.Step u u') : u'.registry.WellFormed := by
  cases h with
  | make driver => exact hu.make
  | change h f _ _ => exact hu.modify
  | keep h => exact Units.wellFormed_keep hu
  | discard h _ => exact hu.drop
  | collect => exact hu.foldl_drop _

theorem steps (hu : u.registry.WellFormed) (h : Relation.ReflTransGen Units.Step u u') :
    u'.registry.WellFormed := by
  induction h with
  | refl => exact hu
  | tail _ hstep ih => exact ih.step hstep

end Registry.WellFormed

end HotLoop
