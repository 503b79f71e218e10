import HotLoop.Collector
import HotLoop.Proofs.Collection.Registry
import Mathlib.Logic.Relation

/-!
# What jumps reach

The search behind a collection follows the recorded jumps layer by layer. Handles of dead units may
be among the targets; they are reached like the others, but nothing is reached through them. A layer
without live units is the last, so the number of live units bounds the number of layers.
-/

namespace HotLoop

def Registry.Jumps (r : Registry) (a b : UnitHandle) : Prop :=
  ∃ unit, r.get? a = some unit ∧ b ∈ unit.jumpsTo

namespace Collector

variable {r : Registry} {hs : List UnitHandle}

theorem mem_successors {b : UnitHandle} : b ∈ successors r hs ↔ ∃ a ∈ hs, r.Jumps a b := by
  simp only [successors, List.mem_flatMap, Registry.Jumps]
  constructor
  · rintro ⟨a, ha, hb⟩
    cases hget : r.get? a with
    | none => simp [hget] at hb
    | some unit => exact ⟨a, ha, unit, hget, by simpa [hget] using hb⟩
  · rintro ⟨a, ha, unit, hget, hb⟩
    exact ⟨a, ha, by simpa [hget] using hb⟩

def Closed (r : Registry) (hs : List UnitHandle) : Prop := ∀ a ∈ hs, ∀ b, r.Jumps a b → b ∈ hs

private def newIn (r : Registry) (hs : List UnitHandle) : List UnitHandle :=
  (successors r hs).filter (!hs.contains ·)

private theorem mem_newIn {b : UnitHandle} :
    b ∈ newIn r hs ↔ (∃ a ∈ hs, r.Jumps a b) ∧ b ∉ hs := by
  simp [newIn, mem_successors]

private theorem reach_succ (n : Nat) :
    reach r (n + 1) hs = if (newIn r hs).isEmpty then hs else reach r n (hs ++ newIn r hs) := rfl

private theorem closed_of_isEmpty (h : (newIn r hs).isEmpty = true) : Closed r hs := by
  intro a ha b hab
  by_contra hb
  have hmem : b ∈ newIn r hs := mem_newIn.mpr ⟨⟨a, ha, hab⟩, hb⟩
  rw [List.isEmpty_iff.mp h] at hmem
  cases hmem

private theorem closed_append (h : ∀ b ∈ newIn r hs, ∀ unit, r.get? b ≠ some unit) :
    Closed r (hs ++ newIn r hs) := by
  intro a ha b hab
  rcases List.mem_append.mp ha with ha | ha
  · by_cases hb : b ∈ hs
    · exact List.mem_append_left _ hb
    · exact List.mem_append_right _ (mem_newIn.mpr ⟨⟨a, ha, hab⟩, hb⟩)
  · obtain ⟨unit, hget, -⟩ := hab
    exact absurd hget (h a ha unit)

/-- The number of live units that are not among the handles. -/
private def unseen (r : Registry) (hs : List UnitHandle) : Nat :=
  (r.liveHandles.filter fun h => decide (h ∉ hs)).length

private theorem unseen_append_lt {b : UnitHandle} {unit : CompiledUnit} (hb : b ∈ newIn r hs)
    (hget : r.get? b = some unit) : unseen r (hs ++ newIn r hs) < unseen r hs := by
  have hsub : (r.liveHandles.filter fun h => decide (h ∉ hs ++ newIn r hs)).Sublist
      (r.liveHandles.filter fun h => decide (h ∉ hs)) := by
    refine List.monotone_filter_right _ fun h hh => ?_
    simp only [List.mem_append, not_or, decide_eq_true_eq] at hh ⊢
    exact hh.1
  refine Nat.lt_of_le_of_ne hsub.length_le fun hlen => ?_
  have hmem : b ∈ r.liveHandles.filter fun h => decide (h ∉ hs) := by
    refine List.mem_filter.mpr ⟨Registry.mem_liveHandles.mpr ⟨unit, hget⟩, ?_⟩
    exact decide_eq_true (mem_newIn.mp hb).2
  rw [← hsub.eq_of_length hlen] at hmem
  have hnot := (List.mem_filter.mp hmem).2
  simp only [List.mem_append, not_or, decide_eq_true_eq] at hnot
  exact hnot.2 hb

private theorem closed_reach_of_unseen_lt (n : Nat) (hs : List UnitHandle)
    (h : unseen r hs < n ∨ Closed r hs) : Closed r (reach r n hs) := by
  induction n generalizing hs with
  | zero =>
    rcases h with h | h
    · exact absurd h (Nat.not_lt_zero _)
    · exact h
  | succ n ih =>
    rw [reach_succ]
    split
    · rename_i hempty
      exact closed_of_isEmpty hempty
    · apply ih
      by_cases hlive : ∃ b ∈ newIn r hs, ∃ unit, r.get? b = some unit
      · obtain ⟨b, hb, unit, hget⟩ := hlive
        have hlt := unseen_append_lt hb hget
        rcases h with h | h
        · exact .inl (by omega)
        · obtain ⟨⟨a, ha, hab⟩, hnot⟩ := mem_newIn.mp hb
          exact absurd (h a ha b hab) hnot
      · refine .inr (closed_append fun b hb unit hget => hlive ⟨b, hb, unit, hget⟩)

private theorem subset_reach (n : Nat) (hs : List UnitHandle) : hs ⊆ reach r n hs := by
  induction n generalizing hs with
  | zero => exact List.Subset.refl _
  | succ n ih =>
    rw [reach_succ]
    split
    · exact List.Subset.refl _
    · exact List.Subset.trans (List.subset_append_left ..) (ih _)

private theorem exists_root_of_mem_reach (n : Nat) (hs : List UnitHandle) {h : UnitHandle}
    (hmem : h ∈ reach r n hs) : ∃ root ∈ hs, Relation.ReflTransGen r.Jumps root h := by
  induction n generalizing hs with
  | zero => exact ⟨h, hmem, .refl⟩
  | succ n ih =>
    rw [reach_succ] at hmem
    split at hmem
    · exact ⟨h, hmem, .refl⟩
    · obtain ⟨root, hroot, hpath⟩ := ih _ hmem
      rcases List.mem_append.mp hroot with hroot | hroot
      · exact ⟨root, hroot, hpath⟩
      · obtain ⟨⟨a, ha, hab⟩, -⟩ := mem_newIn.mp hroot
        exact ⟨a, ha, .head hab hpath⟩

/-- The search finds exactly what paths of jumps lead to. -/
theorem mem_reach {h : UnitHandle} :
    h ∈ reach r (r.size + 1) hs ↔ ∃ root ∈ hs, Relation.ReflTransGen r.Jumps root h := by
  constructor
  · exact exists_root_of_mem_reach _ hs
  · rintro ⟨root, hroot, hpath⟩
    have hunseen : unseen r hs < r.size + 1 := Nat.lt_succ_of_le (List.length_filter_le ..)
    have hclosed := closed_reach_of_unseen_lt (r.size + 1) hs (.inl hunseen)
    induction hpath with
    | refl => exact subset_reach _ hs hroot
    | tail _ hjump ih => exact hclosed _ ih _ hjump

end Collector

end HotLoop
