import HotLoop.Proofs.Collection.Generations
import Mathlib.Data.List.Induction

/-!
# The handles of a registry

Units are made, released, changed and told of jumps, in any order and through any handles. As long
as no slot has gone through all of its generations, no handle is given out twice. A handle is alive
from the moment it is given out until it is released, and what is done through a dead handle does
not find the unit that is in its slot now.
-/

namespace HotLoop.Registry

/-- What may be done with a registry. -/
inductive Command where
  | make (driver : Nat)
  | release (h : UnitHandle)
  | change (h : UnitHandle) (f : CompiledUnit → CompiledUnit)
  | recordJump (source target : UnitHandle)

inductive Reply where
  | made (h : UnitHandle)
  | unit (unit? : Option CompiledUnit)
  | recorded (isNew : Bool)

namespace Command

/-- The handle that a command goes through. -/
def handle? : Command → Option UnitHandle
  | make _ => none
  | release h | change h _ | recordJump h _ => some h

def perform (k : Command) (r : Registry) : Reply × Registry :=
  match k with
  | make driver => (.made (r.make driver).1, (r.make driver).2)
  | release h => (.unit (r.release h).1, (r.release h).2)
  | change h f => (.unit (r.get? h), r.modify h f)
  | recordJump source target =>
    (.recorded (r.isNewJump source target), r.recordJump source target)

/-- The answer of a command that finds no unit. -/
def nothing : Command → Reply
  | recordJump _ _ => .recorded false
  | _ => .unit none

/-- The handle that a command gives out. -/
def given (k : Command) (r : Registry) : List UnitHandle :=
  match k with
  | make driver => [(r.make driver).1]
  | release _ | change _ _ | recordJump _ _ => []

/-- How many units of a slot a command releases. -/
def releases (k : Command) (r : Registry) (i : Nat) : Nat :=
  match k with
  | release h => if r.isAlive h = true ∧ h.index = i then 1 else 0
  | _ => 0

section Step

variable {r : Registry} {k : Command} {h : UnitHandle}

theorem wellFormed_perform (hr : r.WellFormed) (k : Command) : (k.perform r).2.WellFormed := by
  cases k with
  | make driver => exact hr.make
  | release h => exact hr.drop
  | change h f => exact hr.modify
  | recordJump source target => exact hr.modify

theorem isAlive_perform (hr : r.WellFormed) (k : Command) (h : UnitHandle) :
    (k.perform r).2.isAlive h = true ↔
      h ∈ k.given r ∨ r.isAlive h = true ∧ k ≠ .release h := by
  cases k with
  | make driver =>
    have hget : ((make driver).perform r).2.get? h = _ := hr.get?_make h
    rw [isAlive, hget, isAlive, given, List.mem_singleton]
    split <;> simp [*]
  | release h' =>
    have hget : ((release h').perform r).2.get? h = _ := get?_drop h
    rw [isAlive, hget, isAlive, given]
    by_cases heq : h = h'
    · simp [heq]
    · simp [heq, Ne.symm heq]
  | change h' f =>
    have hget : ((change h' f).perform r).2.get? h = _ := get?_modify ..
    rw [isAlive, hget, isAlive, given]
    split <;> simp [*]
  | recordJump source target =>
    have hget : ((recordJump source target).perform r).2.get? h = _ := get?_modify ..
    rw [isAlive, hget, isAlive, given]
    split <;> simp [*]

theorem generation_perform (k : Command) (r : Registry) (i : Nat) :
    k.releases r i = 0 ∧ (k.perform r).2.generation i = r.generation i ∨
      k.releases r i = 1 ∧
        (k.perform r).2.generation i = UnitSlot.nextGeneration (r.generation i) := by
  cases k with
  | make driver => exact .inl ⟨rfl, generation_make ..⟩
  | release h =>
    have hdrop : ((release h).perform r).2.generation i = _ := generation_drop
    rw [hdrop, releases]
    by_cases hslot : r.isAlive h = true ∧ h.index = i
    · exact .inr ⟨if_pos hslot, if_pos hslot⟩
    · exact .inl ⟨if_neg hslot, if_neg hslot⟩
  | change h f => exact .inl ⟨rfl, generation_modify ..⟩
  | recordJump source target => exact .inl ⟨rfl, generation_modify ..⟩

theorem length_slots_le_perform (k : Command) (r : Registry) :
    r.slots.length ≤ (k.perform r).2.slots.length := by
  cases k with
  | make driver =>
    unfold perform Registry.make
    dsimp only
    split <;> simp
  | release h =>
    unfold perform Registry.release
    dsimp only
    split <;> simp
  | change h f => exact Nat.le_of_eq (List.length_modify ..).symm
  | recordJump source target => exact Nat.le_of_eq (List.length_modify ..).symm

theorem perform_of_dead (hk : k.handle? = some h) (hdead : r.isAlive h = false) :
    k.perform r = (k.nothing, r) := by
  have hnone := isAlive_eq_false_iff.mp hdead
  cases k with
  | make driver => cases hk
  | release h' =>
    cases hk
    unfold perform Registry.release
    dsimp only
    rw [hnone]
    rfl
  | change h' f =>
    cases hk
    exact Prod.ext (congrArg Reply.unit hnone) (modify_of_dead hdead f)
  | recordJump source target =>
    cases hk
    refine Prod.ext ?_ (modify_of_dead hdead _)
    unfold perform isNewJump
    dsimp only
    rw [hnone]
    rfl

theorem get?_perform_of_other (hr : r.WellFormed) (hk : k.handle? ≠ some h)
    (halive : r.isAlive h = true) : (k.perform r).2.get? h = r.get? h := by
  cases k with
  | make driver =>
    refine (hr.get?_make h).trans (if_neg fun heq => ?_)
    rw [heq, isAlive, hr.get?_make_fst] at halive
    cases halive
  | release h' => exact (get?_drop h).trans (if_neg fun heq => hk (congrArg some heq.symm))
  | change h' f => exact (get?_modify ..).trans (if_neg fun heq => hk (congrArg some heq.symm))
  | recordJump source target =>
    exact (get?_modify ..).trans (if_neg fun heq => hk (congrArg some heq.symm))

end Step

end Command

variable (r : Registry) (commands : List Command) (k : Command) (h : UnitHandle) (i : Nat)

/-- The registry behind some commands. -/
def after : Registry := commands.foldl (fun r k => (k.perform r).2) r

/-- The handles that commands give out, in their order. -/
def given : Registry → List Command → List UnitHandle
  | _, [] => []
  | r, k :: commands => k.given r ++ given (k.perform r).2 commands

/-- How many units of a slot commands release. -/
def releases (i : Nat) : Registry → List Command → Nat
  | _, [] => 0
  | r, k :: commands => k.releases r i + releases i (k.perform r).2 commands

theorem after_concat : after r (commands ++ [k]) = (k.perform (after r commands)).2 :=
  List.foldl_concat ..

theorem given_concat :
    given r (commands ++ [k]) = given r commands ++ k.given (after r commands) := by
  induction commands generalizing r with
  | nil => simp [given, after]
  | cons k' commands ih => rw [List.cons_append, given, ih, given, List.append_assoc]; rfl

theorem releases_concat :
    releases i r (commands ++ [k]) = releases i r commands + k.releases (after r commands) i := by
  induction commands generalizing r with
  | nil => simp [releases, after]
  | cons k' commands ih => rw [List.cons_append, releases, ih, releases, Nat.add_assoc]; rfl

theorem releases_le_length : releases i r commands ≤ commands.length := by
  induction commands generalizing r with
  | nil => exact Nat.le_refl _
  | cons k commands ih =>
    have hrest := ih (k.perform r).2
    rw [releases, List.length_cons]
    rcases k.generation_perform r i with ⟨hone, -⟩ | ⟨hone, -⟩ <;> omega

/-- The handle has been given out, and has not been released since. -/
def Holds : Prop :=
  ∃ before driver rest, commands = before ++ .make driver :: rest ∧
    ((after {} before).make driver).1 = h ∧ .release h ∉ rest

theorem holds_concat : Holds (commands ++ [k]) h ↔
    h ∈ k.given (after {} commands) ∨ Holds commands h ∧ k ≠ .release h := by
  constructor
  · rintro ⟨before, driver, rest, heq, hmake, hrest⟩
    rcases List.eq_nil_or_concat' rest with rfl | ⟨rest, k', rfl⟩
    · obtain ⟨rfl, hk⟩ := List.append_inj' heq rfl
      cases hk
      exact .inl (List.mem_singleton.mpr hmake.symm)
    · rw [← List.cons_append, ← List.append_assoc] at heq
      obtain ⟨rfl, hk⟩ := List.append_inj' heq rfl
      cases hk
      rw [List.mem_append, List.mem_singleton, not_or] at hrest
      exact .inr ⟨⟨before, driver, rest, rfl, hmake, hrest.1⟩, fun hk => hrest.2 hk.symm⟩
  · rintro (hgiven | ⟨⟨before, driver, rest, rfl, hmake, hrest⟩, hk⟩)
    · cases k with
      | make driver =>
        exact ⟨commands, driver, [], rfl, (List.mem_singleton.mp hgiven).symm, List.not_mem_nil⟩
      | _ => cases hgiven
    · refine ⟨before, driver, rest ++ [k], by simp, hmake, ?_⟩
      rw [List.mem_append, List.mem_singleton, not_or]
      exact ⟨hrest, fun heq => hk heq.symm⟩

theorem wellFormed_after : (after {} commands).WellFormed := by
  induction commands using List.reverseRecOn with
  | nil => exact wellFormed_empty
  | append_singleton commands k ih =>
    rw [after_concat]
    exact Command.wellFormed_perform ih k

theorem isAlive_after_iff : (after {} commands).isAlive h = true ↔ Holds commands h := by
  induction commands using List.reverseRecOn with
  | nil =>
    refine ⟨fun halive => absurd halive Bool.false_ne_true, ?_⟩
    rintro ⟨before, driver, rest, heq, -⟩
    simp at heq
  | append_singleton commands k ih =>
    rw [after_concat, Command.isAlive_perform (wellFormed_after commands), ih, holds_concat]

/-- The numbers of the handles that have been given out, as long as no slot has gone round. -/
structure Numbered : Prop where
  generation : ∀ i, (after {} commands).generation i = releases i {} commands + 1
  nodup : (given {} commands).Nodup
  pos : ∀ h ∈ given {} commands, 0 < h.generation
  index_lt : ∀ h ∈ given {} commands, h.index < (after {} commands).slots.length
  past : ∀ h ∈ given {} commands, (after {} commands).isAlive h = true ∨
    h.generation < (after {} commands).generation h.index

theorem numbered_nil : Numbered [] where
  generation i := rfl
  nodup := List.nodup_nil
  pos h hh := by cases hh
  index_lt h hh := by cases hh
  past h hh := by cases hh

variable {commands k h}

theorem Command.isAlive_of_given {r : Registry} (hr : r.WellFormed) (hgiven : h ∈ k.given r) :
    r.isAlive h = false ∧ (k.perform r).2.isAlive h = true ∧
      h.generation = r.generation h.index ∧ h.index < (k.perform r).2.slots.length := by
  have halive := (isAlive_perform hr k h).mpr (.inl hgiven)
  obtain ⟨unit, hget⟩ := isAlive_iff.mp halive
  have hlt := (List.getElem?_eq_some_iff.mp (get?_eq_some.mp hget)).1
  have hgeneration := generation_of_isAlive halive
  cases k with
  | make driver =>
    have hdead : r.isAlive h = false := by
      rw [List.mem_singleton.mp hgiven, isAlive_eq_false_iff]
      exact hr.get?_make_fst
    exact ⟨hdead, halive, hgeneration.symm.trans (generation_make ..), hlt⟩
  | _ => cases hgiven

section Concat

variable (hn : Numbered commands)
  (hfew : ∀ i, releases i {} (commands ++ [k]) < UInt32.size - 1)
include hn hfew

theorem Numbered.generation_concat (i : Nat) :
    (after {} (commands ++ [k])).generation i = releases i {} (commands ++ [k]) + 1 := by
  have hlt := hfew i
  have hold := hn.generation i
  rw [releases_concat] at hlt
  rw [after_concat, releases_concat]
  rcases k.generation_perform (after {} commands) i with ⟨hzero, hsame⟩ | ⟨hone, hnext⟩
  · rw [hsame, hzero, hold]
  · rw [hnext, hone, hold, UnitSlot.nextGeneration, if_pos (by omega)]

theorem Numbered.past_concat (hh : h ∈ given {} commands) :
    (after {} (commands ++ [k])).isAlive h = true ∨
      h.generation < (after {} (commands ++ [k])).generation h.index := by
  rw [hn.generation_concat hfew, releases_concat, after_concat]
  rcases hn.past h hh with halive | hlt
  · by_cases hk : k = .release h
    · have hone : k.releases (after {} commands) h.index = 1 := by
        rw [hk]
        exact if_pos ⟨halive, rfl⟩
      have hsame := generation_of_isAlive halive
      rw [hn.generation] at hsame
      exact .inr (by omega)
    · exact .inl ((Command.isAlive_perform (wellFormed_after commands) k h).mpr
        (.inr ⟨halive, hk⟩))
  · rw [hn.generation] at hlt
    exact .inr (by omega)

theorem Numbered.concat : Numbered (commands ++ [k]) := by
  have hr := wellFormed_after commands
  have hlength := k.length_slots_le_perform (after {} commands)
  refine ⟨hn.generation_concat hfew, ?_, ?_, ?_, ?_⟩
  · rw [given_concat]
    refine List.nodup_append.mpr ⟨hn.nodup, ?_, fun a ha b hb heq => ?_⟩
    · cases k with
      | make driver => exact List.nodup_singleton _
      | _ => exact List.nodup_nil
    · obtain ⟨hdead, -, hsame, -⟩ := Command.isAlive_of_given hr (heq ▸ hb)
      rcases hn.past a ha with halive | hlt
      · rw [hdead] at halive
        cases halive
      · omega
  all_goals
    intro h hh
    rw [given_concat] at hh
    rcases List.mem_append.mp hh with hh | hh
  · exact hn.pos h hh
  · obtain ⟨-, -, hsame, -⟩ := Command.isAlive_of_given hr hh
    rw [hsame, hn.generation]
    exact Nat.succ_pos _
  · rw [after_concat]
    exact Nat.lt_of_lt_of_le (hn.index_lt h hh) hlength
  · rw [after_concat]
    exact (Command.isAlive_of_given hr hh).2.2.2
  · exact hn.past_concat hfew hh
  · rw [after_concat]
    exact .inl (Command.isAlive_of_given hr hh).2.1

end Concat

theorem numbered (hfew : ∀ i, releases i {} commands < UInt32.size - 1) : Numbered commands := by
  induction commands using List.reverseRecOn with
  | nil => exact numbered_nil
  | append_singleton commands k ih =>
    refine (ih fun i => ?_).concat hfew
    have hlt := hfew i
    rw [releases_concat] at hlt
    omega

theorem Numbered.generation_lt (hn : Numbered commands)
    (hfew : ∀ i, releases i {} commands < UInt32.size - 1) (hh : h ∈ given {} commands) :
    h.generation < UInt32.size := by
  have hlt := hfew h.index
  have hgeneration := hn.generation h.index
  rcases hn.past h hh with halive | hpast
  · have hsame := generation_of_isAlive halive
    omega
  · omega

/--
No handle is given out twice, as long as no slot goes through all its generations, and the two
numbers of a handle are words as long as there are not more slots than words. A handle is alive
from when it has been given out until it is released. A command through any other handle finds
nothing and changes nothing, and one through a live handle concerns the unit of this handle alone.
-/
theorem handles_apart (commands : List Command)
    (hfew : ∀ i, releases i {} commands < UInt32.size - 1) :
    let r := after {} commands
    (given {} commands).Nodup ∧
      (∀ h ∈ given {} commands,
        h.index < r.slots.length ∧ 0 < h.generation ∧ h.generation < UInt32.size) ∧
      (∀ h, r.isAlive h = true ↔ Holds commands h) ∧
      r.isAlive .dangling = false ∧
      (∀ (k : Command) h, k.handle? = some h → r.isAlive h = false →
        k.perform r = (k.nothing, r)) ∧
      (∀ (k : Command) h, k.handle? ≠ some h → r.isAlive h = true →
        (k.perform r).2.get? h = r.get? h) ∧
      r.liveHandles.Nodup ∧ (∀ h, h ∈ r.liveHandles ↔ r.isAlive h = true) ∧
      (r.liveHandles.map (·.index)).Pairwise (· < ·) ∧
      r.size = r.liveHandles.length ∧ r.size = r.slots.countP (·.unit?.isSome) := by
  intro r
  have hr : r.WellFormed := wellFormed_after commands
  have hn := numbered hfew
  refine ⟨hn.nodup, fun h hh => ⟨hn.index_lt h hh, hn.pos h hh, hn.generation_lt hfew hh⟩,
    isAlive_after_iff commands, ?_, fun k h => Command.perform_of_dead,
    fun k h => Command.get?_perform_of_other hr, r.nodup_liveHandles,
    fun h => mem_liveHandles.trans isAlive_iff.symm, r.pairwise_index_liveHandles, rfl,
    r.size_eq_countP⟩
  refine Bool.eq_false_iff.mpr fun halive => ?_
  have hgeneration := generation_of_isAlive halive
  rw [hn.generation] at hgeneration
  cases hgeneration

/-- A unit is released twice; its slot has been used again in between. -/
theorem handles_apart_reusedSlot :
    let old : UnitHandle := ⟨0, 1⟩
    let new : UnitHandle := ⟨0, 2⟩
    let commands : List Command := [.make 0, .make 0, .release old, .make 1, .release old]
    let r := after {} commands
    (∀ i, releases i {} commands < UInt32.size - 1) ∧ old ∈ given {} commands ∧
      (given {} commands).Nodup ∧ r.isAlive old = false ∧ r.isAlive new = true ∧
      (Command.release old).perform r = (.unit none, r) := by
  intro old new commands r
  have hfew (i : Nat) : releases i {} commands < UInt32.size - 1 :=
    Nat.lt_of_le_of_lt (releases_le_length {} commands i) (by decide)
  obtain ⟨hnodup, -, -, -, hdead, -⟩ := handles_apart commands hfew
  exact ⟨hfew, by decide, hnodup, rfl, rfl, hdead (.release old) old rfl rfl⟩

end HotLoop.Registry
