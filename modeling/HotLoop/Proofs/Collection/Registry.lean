import HotLoop.Registry
import Mathlib.Data.List.Nodup

/-!
# The life of a handle

What each operation of the registry does to the unit of every handle. Making a unit concerns the
new handle only, and so does dropping one; a slot that is used again never revives the handles
that it had before.
-/

namespace HotLoop.Registry

/-- Free slots are empty, and no slot is listed twice. -/
structure WellFormed (r : Registry) : Prop where
  nodup : r.free.Nodup
  empty : ∀ i ∈ r.free, ∃ g, r.slots[i]? = some ⟨g, none⟩

theorem wellFormed_empty : WellFormed {} where
  nodup := List.nodup_nil
  empty i hi := by cases hi

theorem get?_eq_some {r : Registry} {h : UnitHandle} {unit : CompiledUnit} :
    r.get? h = some unit ↔ r.slots[h.index]? = some ⟨h.generation, some unit⟩ := by
  unfold get?
  cases r.slots[h.index]? with
  | none => simp
  | some slot =>
    obtain ⟨g, unit?⟩ := slot
    by_cases hg : g = h.generation
    · simp [hg]
    · simp [hg]

theorem isAlive_iff {r : Registry} {h : UnitHandle} :
    r.isAlive h = true ↔ ∃ unit, r.get? h = some unit := by
  rw [isAlive, Option.isSome_iff_exists]

theorem isAlive_of_get? {r : Registry} {h : UnitHandle} {unit : CompiledUnit}
    (hget : r.get? h = some unit) : r.isAlive h = true :=
  isAlive_iff.mpr ⟨unit, hget⟩

theorem isAlive_eq_false_iff {r : Registry} {h : UnitHandle} :
    r.isAlive h = false ↔ r.get? h = none := by
  rw [isAlive, Option.isSome_eq_false_iff, Option.isNone_iff_eq_none]

section Live

theorem mem_liveHandles {r : Registry} {h : UnitHandle} :
    h ∈ r.liveHandles ↔ ∃ unit, r.get? h = some unit := by
  simp only [liveHandles, List.mem_filterMap, Prod.exists, List.mem_zipIdx_iff_getElem?,
    get?_eq_some, Option.map_eq_some_iff]
  constructor
  · rintro ⟨⟨g, _⟩, index, hslot, unit, rfl, rfl⟩
    exact ⟨unit, hslot⟩
  · rintro ⟨unit, hslot⟩
    exact ⟨⟨h.generation, some unit⟩, h.index, hslot, unit, rfl, rfl⟩

theorem pairwise_index_liveHandles (r : Registry) :
    (r.liveHandles.map (·.index)).Pairwise (· < ·) := by
  have hindex : (r.slots.zipIdx.map Prod.snd).Pairwise (· < ·) := by
    rw [List.zipIdx_map_snd]
    exact List.pairwise_lt_range' ..
  refine List.pairwise_map.mpr (List.Pairwise.filterMap (fun e : UnitSlot × Nat =>
    e.1.unit?.map fun _ => (⟨e.2, e.1.generation⟩ : UnitHandle)) ?_ (List.pairwise_map.mp hindex))
  intro e e' hlt h hh h' hh'
  obtain ⟨_, -, rfl⟩ := Option.map_eq_some_iff.mp hh
  obtain ⟨_, -, rfl⟩ := Option.map_eq_some_iff.mp hh'
  exact hlt

theorem nodup_index_liveHandles (r : Registry) : (r.liveHandles.map (·.index)).Nodup :=
  r.pairwise_index_liveHandles.imp Nat.ne_of_lt

theorem nodup_liveHandles (r : Registry) : r.liveHandles.Nodup :=
  List.Nodup.of_map _ r.nodup_index_liveHandles

/-- As many slots have a unit as units are listed. -/
theorem size_eq_countP (r : Registry) : r.size = r.slots.countP (·.unit?.isSome) := by
  have hlength (i : Nat) (slots : List UnitSlot) :
      ((slots.zipIdx i).filterMap fun e : UnitSlot × Nat => e.1.unit?.map fun _ =>
        (⟨e.2, e.1.generation⟩ : UnitHandle)).length = slots.countP (·.unit?.isSome) := by
    induction slots generalizing i with
    | nil => rfl
    | cons slot slots ih =>
      rw [List.zipIdx_cons, List.filterMap_cons, List.countP_cons]
      cases slot.unit? with
      | none => exact ih (i + 1)
      | some unit => exact congrArg (· + 1) (ih (i + 1))
  exact hlength 0 r.slots

end Live

section Making

variable {r : Registry} {driver : Nat}

theorem WellFormed.get?_make (hr : r.WellFormed) (h : UnitHandle) :
    (r.make driver).2.get? h = if h = (r.make driver).1 then some { driver } else r.get? h := by
  obtain ⟨slots, free⟩ := r
  cases free with
  | cons index free =>
    obtain ⟨g, hslot⟩ := hr.empty index (List.mem_cons_self ..)
    have hslot : slots[index]? = some ⟨g, none⟩ := hslot
    have hlt : index < slots.length := (List.getElem?_eq_some_iff.mp hslot).1
    obtain ⟨i, g'⟩ := h
    simp only [make, hslot, Option.map_some, Option.getD_some, get?, List.getElem?_set,
      UnitHandle.mk.injEq]
    by_cases hi : index = i
    · subst hi
      simp only [↓reduceIte, hlt, hslot, true_and, eq_comm]
      split <;> rfl
    · have hi' : ¬ i = index := fun heq => hi heq.symm
      simp [hi, hi']
  | nil =>
    obtain ⟨i, g'⟩ := h
    simp only [make, get?, UnitHandle.mk.injEq, List.getElem?_append]
    by_cases hi : i < slots.length
    · have hne : ¬ i = slots.length := Nat.ne_of_lt hi
      simp [hi, hne]
    · by_cases heq : i = slots.length
      · subst heq
        simp [eq_comm]
      · have hgt : slots.length < i := by omega
        have hlast : ([⟨1, some { driver }⟩] : List UnitSlot)[i - slots.length]? = none :=
          List.getElem?_eq_none (by simp only [List.length_singleton]; omega)
        simp [hi, heq, hlast]

theorem WellFormed.get?_make_fst (hr : r.WellFormed) : r.get? (r.make driver).1 = none := by
  obtain ⟨slots, free⟩ := r
  cases free with
  | cons index free =>
    obtain ⟨g, hslot⟩ := hr.empty index (List.mem_cons_self ..)
    have hslot : slots[index]? = some ⟨g, none⟩ := hslot
    simp [make, get?, hslot]
  | nil =>
    simp [make, get?]

theorem WellFormed.make (hr : r.WellFormed) : (r.make driver).2.WellFormed := by
  obtain ⟨slots, free⟩ := r
  cases free with
  | cons index free =>
    refine ⟨(List.nodup_cons.mp hr.nodup).2, fun i hi => ?_⟩
    have hne : index ≠ i := fun heq => (List.nodup_cons.mp hr.nodup).1 (heq ▸ hi)
    simp only [Registry.make, List.getElem?_set, hne, ↓reduceIte]
    exact hr.empty i (List.mem_cons_of_mem _ hi)
  | nil => exact ⟨List.nodup_nil, fun i hi => by cases hi⟩

end Making

section Changing

variable {r : Registry} {h : UnitHandle} {f : CompiledUnit → CompiledUnit}

theorem WellFormed.modify (hr : r.WellFormed) : (r.modify h f).WellFormed := by
  refine ⟨hr.nodup, fun i hi => ?_⟩
  obtain ⟨g, hslot⟩ := hr.empty i hi
  refine ⟨g, ?_⟩
  simp only [Registry.modify, List.getElem?_modify, hslot]
  simp

theorem modify_of_dead (hdead : r.isAlive h = false) (f : CompiledUnit → CompiledUnit) :
    r.modify h f = r := by
  have hnone := isAlive_eq_false_iff.mp hdead
  have hsame (slot : UnitSlot) (hslot : r.slots[h.index]? = some slot) :
      (if slot.generation = h.generation then { slot with unit? := slot.unit?.map f } else slot) =
        slot := by
    unfold get? at hnone
    rw [hslot] at hnone
    obtain ⟨g, unit?⟩ := slot
    by_cases hg : g = h.generation
    · have hempty : unit? = none := by simpa [hg] using hnone
      simp [hempty]
    · simp [hg]
  unfold modify
  congr 1
  refine List.ext_getElem? fun i => ?_
  rw [List.getElem?_modify]
  by_cases hi : h.index = i
  · subst hi
    cases hslot : r.slots[h.index]? with
    | none => rfl
    | some slot => simp [hsame slot hslot]
  · simp [hi]

end Changing

section Dropping

variable {r : Registry} {h : UnitHandle}

theorem get?_drop (h' : UnitHandle) :
    (r.drop h).get? h' = if h' = h then none else r.get? h' := by
  unfold drop release
  cases hget : r.get? h with
  | none =>
    by_cases heq : h' = h
    · rw [if_pos heq, heq]
      exact hget
    · rw [if_neg heq]
  | some unit =>
    have hslot := get?_eq_some.mp hget
    have hlt : h.index < r.slots.length := (List.getElem?_eq_some_iff.mp hslot).1
    obtain ⟨i, g⟩ := h
    obtain ⟨i', g'⟩ := h'
    simp only [get?, List.getElem?_set, UnitHandle.mk.injEq] at hslot hlt ⊢
    by_cases hi : i = i'
    · subst hi
      simp only [↓reduceIte, hlt, hslot, true_and]
      by_cases hg : g = g'
      · simp [hg]
      · have hg' : ¬ g' = g := fun heq => hg heq.symm
        simp [hg, hg']
    · have hi' : ¬ i' = i := fun heq => hi heq.symm
      simp [hi, hi']

theorem WellFormed.drop (hr : r.WellFormed) : (r.drop h).WellFormed := by
  unfold Registry.drop release
  cases hget : r.get? h with
  | none => exact hr
  | some unit =>
    have hslot := get?_eq_some.mp hget
    have hlt : h.index < r.slots.length := (List.getElem?_eq_some_iff.mp hslot).1
    have hnew : h.index ∉ r.free := by
      intro hmem
      obtain ⟨g, hfree⟩ := hr.empty h.index hmem
      rw [hfree] at hslot
      cases hslot
    refine ⟨List.nodup_cons.mpr ⟨hnew, hr.nodup⟩, fun i hi => ?_⟩
    rcases List.mem_cons.mp hi with rfl | hi
    · exact ⟨UnitSlot.nextGeneration h.generation, by
        simp only [List.getElem?_set, ↓reduceIte, hlt]⟩
    · have hne : h.index ≠ i := fun heq => hnew (heq ▸ hi)
      simp only [List.getElem?_set, hne, ↓reduceIte]
      exact hr.empty i hi

theorem get?_foldl_drop (hs : List UnitHandle) (h' : UnitHandle) :
    (hs.foldl Registry.drop r).get? h' = if h' ∈ hs then none else r.get? h' := by
  induction hs generalizing r with
  | nil => simp
  | cons h hs ih =>
    rw [List.foldl_cons, ih, get?_drop]
    by_cases hmem : h' ∈ hs
    · simp [hmem]
    · simp [hmem]

theorem WellFormed.foldl_drop (hr : r.WellFormed) (hs : List UnitHandle) :
    (hs.foldl Registry.drop r).WellFormed := by
  induction hs generalizing r with
  | nil => exact hr
  | cons h hs ih => exact ih hr.drop

end Dropping

section Counting

variable {r r' : Registry} {h : UnitHandle} {hs : List UnitHandle}

private theorem mem_liveHandles_iff_isAlive : h ∈ r.liveHandles ↔ r.isAlive h = true :=
  mem_liveHandles.trans isAlive_iff.symm

theorem size_eq_of_isAlive (h : ∀ u, r'.isAlive u = r.isAlive u) : r'.size = r.size := by
  refine ((List.perm_ext_iff_of_nodup r'.nodup_liveHandles r.nodup_liveHandles).mpr
    fun u => ?_).length_eq
  rw [mem_liveHandles_iff_isAlive, mem_liveHandles_iff_isAlive, h]

theorem size_succ_of_isAlive (hdead : r.isAlive h = false)
    (halive : ∀ u, r'.isAlive u = (r.isAlive u || u == h)) : r'.size = r.size + 1 := by
  have hnew : (h :: r.liveHandles).Nodup :=
    List.nodup_cons.mpr ⟨by simp [mem_liveHandles_iff_isAlive, hdead], r.nodup_liveHandles⟩
  refine ((List.perm_ext_iff_of_nodup r'.nodup_liveHandles hnew).mpr fun u => ?_).length_eq
  rw [mem_liveHandles_iff_isAlive, halive, List.mem_cons, mem_liveHandles_iff_isAlive,
    Bool.or_eq_true, beq_iff_eq, or_comm]

theorem size_foldl_drop (hnodup : hs.Nodup) (halive : ∀ u ∈ hs, r.isAlive u = true) :
    (hs.foldl Registry.drop r).size + hs.length = r.size := by
  have hleft (u : UnitHandle) : (hs.foldl Registry.drop r).isAlive u = true ↔
      u ∉ hs ∧ r.isAlive u = true := by
    rw [isAlive, get?_foldl_drop, isAlive]
    split <;> simp [*]
  have hsplit : (hs ++ (hs.foldl Registry.drop r).liveHandles).Nodup := by
    refine List.nodup_append.mpr ⟨hnodup, nodup_liveHandles _, fun u hu v hv heq => ?_⟩
    exact ((hleft v).mp (mem_liveHandles_iff_isAlive.mp hv)).1 (heq ▸ hu)
  have hperm : (hs ++ (hs.foldl Registry.drop r).liveHandles).Perm r.liveHandles := by
    refine (List.perm_ext_iff_of_nodup hsplit r.nodup_liveHandles).mpr fun u => ?_
    rw [List.mem_append, mem_liveHandles_iff_isAlive, mem_liveHandles_iff_isAlive, hleft]
    by_cases hu : u ∈ hs
    · simp [hu, halive u hu]
    · simp [hu]
  rw [size, size, ← hperm.length_eq, List.length_append, Nat.add_comm]

end Counting

end HotLoop.Registry
