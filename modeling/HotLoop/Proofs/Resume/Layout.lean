import HotLoop.Proofs.Resume.Allocation

/-!
# What an arena holds while resume data is read

An object that has been there before holds what the pending writes to it have left. A virtual object
holds what was to be stored into it and then what the pending writes to it have left. Only the
addresses of virtual objects depend on the order in which they are built.
-/

namespace HotLoop

inductive WriteTarget where
  | old (index : Nat)
  | virtual (index : Nat)
  deriving DecidableEq

namespace ResumeData

variable (data : ResumeData) (values : List Value)

/-- There is none for a target that is null, no reference, or outside the arena. -/
def target? (w : PendingWrite) : Option WriteTarget :=
  match w.target with
  | .virtual i => if i < data.virtuals.length then some (.virtual i) else none
  | t =>
    match data.meaning values [] t with
    | .ref a => (Arena.indexOf? a).map .old
    | _ => none

/-- What the performed ones of the pending writes have stored into an object. -/
def writesTo (done : List PendingWrite) (target : WriteTarget) : List (Place × Tagged) :=
  (done.filter fun w => data.target? values w = some target).map fun w => (w.place, w.value)

def resolve (cache : VirtualCache) (entries : List (Place × Tagged)) : List (Place × Value) :=
  entries.map fun e => (e.1, data.meaning values cache e.2)

/-- No reference among the values of a frame and the constants points behind so many objects. -/
def PointsBelow (count : Nat) : Prop :=
  ∀ a k, Value.ref a ∈ values ++ data.consts → Arena.indexOf? a = some k → k < count

/-- The number of the object that a pending write goes to. -/
def targetIndex? (cache : VirtualCache) (w : PendingWrite) : Option Nat :=
  match data.meaning values cache w.target with
  | .ref a => Arena.indexOf? a
  | _ => none

variable {data values}

theorem writesTo_append (done done' : List PendingWrite) (target : WriteTarget) :
    data.writesTo values (done ++ done') target =
      data.writesTo values done target ++ data.writesTo values done' target := by
  unfold writesTo
  rw [List.filter_append, List.map_append]

theorem writesTo_concat (done : List PendingWrite) (w : PendingWrite) (target : WriteTarget) :
    data.writesTo values (done ++ [w]) target =
      data.writesTo values done target ++
        if data.target? values w = some target then [(w.place, w.value)] else [] := by
  rw [writesTo_append]
  congr 1
  unfold writesTo
  split <;> simp [*]

theorem exists_of_mem_writesTo {done : List PendingWrite} {target : WriteTarget}
    {e : Place × Tagged} (h : e ∈ data.writesTo values done target) :
    ∃ w ∈ done, data.target? values w = some target ∧ e = (w.place, w.value) := by
  obtain ⟨w, hw, rfl⟩ := List.mem_map.mp h
  obtain ⟨hmem, htarget⟩ := List.mem_filter.mp hw
  exact ⟨w, hmem, of_decide_eq_true htarget, rfl⟩

theorem resolve_append (cache : VirtualCache) (entries entries' : List (Place × Tagged)) :
    data.resolve values cache (entries ++ entries') =
      data.resolve values cache entries ++ data.resolve values cache entries' := List.map_append

theorem resolve_concat (cache : VirtualCache) (entries : List (Place × Tagged)) (p : Place)
    (t : Tagged) : data.resolve values cache (entries ++ [(p, t)]) =
      data.resolve values cache entries ++ [(p, data.meaning values cache t)] := List.map_append

private theorem mem_of_getD_eq_ref {l : List Value} {i : Nat} {a : UInt64}
    (h : l[i]?.getD .void = .ref a) : Value.ref a ∈ l := by
  cases hi : l[i]? with
  | none =>
    rw [hi] at h
    cases h
  | some v =>
    rw [hi] at h
    have hv : v = .ref a := h
    exact hv ▸ List.mem_of_getElem? hi

/-- A reference among the values and constants is the only one that can point into the arena. -/
theorem lt_of_meaning {count : Nat} (h : data.PointsBelow values count) {cache : VirtualCache}
    {t : Tagged} (ht : ∀ i, t ≠ .virtual i) {a : UInt64} {k : Nat}
    (ha : data.meaning values cache t = .ref a) (hk : Arena.indexOf? a = some k) : k < count := by
  cases t with
  | box i => exact h a k (List.mem_append_left _ (mem_of_getD_eq_ref ha)) hk
  | const i => exact h a k (List.mem_append_right _ (mem_of_getD_eq_ref ha)) hk
  | int n => cases ha
  | virtual i => exact absurd rfl (ht i)
  | null =>
    cases ha
    cases hk

end ResumeData

theorem ResumeData.exists_ref_of_targetIndex? {data : ResumeData} {values : List Value}
    {cache : VirtualCache} {w : PendingWrite} (h : data.targetIndex? values cache w ≠ none) :
    ∃ a, data.meaning values cache w.target = .ref a := by
  unfold targetIndex? at h
  cases hmeaning : data.meaning values cache w.target with
  | ref a => exact ⟨a, rfl⟩
  | _ =>
    rw [hmeaning] at h
    exact absurd rfl h

theorem Reader.getElem?_perform (data : ResumeData) (values : List Value) (r : Reader Arena)
    (w : PendingWrite) (k : Nat) :
    (r.perform data values w).heap.objects[k]? =
      if data.targetIndex? values r.cache w = some k then
        r.heap.objects[k]?.map (·.store w.place (data.meaning values r.cache w.value))
      else r.heap.objects[k]? := by
  unfold perform ResumeData.targetIndex?
  cases data.meaning values r.cache w.target with
  | ref a =>
    dsimp only
    rw [Arena.store_eq, Arena.getElem?_modify]
  | _ => rfl

theorem Reader.length_perform (data : ResumeData) (values : List Value) (r : Reader Arena)
    (w : PendingWrite) :
    (r.perform data values w).heap.objects.length = r.heap.objects.length := by
  unfold perform
  cases data.meaning values r.cache w.target with
  | ref a =>
    dsimp only
    rw [Arena.store_eq, Arena.length_modify]
  | _ => rfl

namespace Reading

def storedTo (s : Reading Arena) (info : VirtualInfo) (i : Nat) : List (Place × Tagged) :=
  (s.partials.lookup i).getD info.contents

section Stored

variable {data : ResumeData} {r : Reader Arena} {partials : List (Nat × List (Place × Tagged))}
  {done : List PendingWrite} {i : Nat} {info : VirtualInfo}

theorem storedTo_cons (r : Reader Arena) (partials : List (Nat × List (Place × Tagged)))
    (done : List PendingWrite) (i i' : Nat) (stored : List (Place × Tagged)) (info : VirtualInfo) :
    storedTo ⟨r, (i, stored) :: partials, done⟩ info i' =
      if i' = i then stored else storedTo ⟨r, partials, done⟩ info i' := by
  unfold storedTo
  rw [List.lookup_cons]
  by_cases hi : i' = i
  · simp [hi]
  · rw [beq_eq_false_iff_ne.mpr hi, if_neg hi]

theorem storedTo_finished (hs : Sound data ⟨r, (i, info.contents) :: partials, done⟩)
    (hinfo : data.virtuals[i]? = some info) (i' : Nat) (info' : VirtualInfo)
    (hinfo' : data.virtuals[i']? = some info') :
    storedTo ⟨r, (i, info.contents) :: partials, done⟩ info' i' =
      storedTo ⟨r, partials, done⟩ info' i' := by
  rw [storedTo_cons]
  split
  · rename_i hi
    subst hi
    obtain rfl := Option.some.inj (hinfo.symm.trans hinfo')
    have hnot : i' ∉ partials.map (·.1) := (List.nodup_cons.mp hs.nodup).1
    have hlookup : partials.lookup i' = none := by
      refine List.lookup_eq_none_iff.mpr fun e he => ?_
      have hne : i' ≠ e.1 := fun hi => hnot (hi ▸ List.mem_map_of_mem he)
      exact bne_iff_ne.mpr hne
    unfold storedTo
    rw [hlookup]
    rfl
  · rfl

end Stored

section

variable (data : ResumeData) (values : List Value)

/--
What the arena holds: `order` are the virtual objects in the order of their allocation, and `final`
is the cache in the end.
-/
structure Laid (before : Arena) (final : VirtualCache) (order : List Nat) (s : Reading Arena) :
    Prop where
  nodup : order.Nodup
  inRange : ∀ i ∈ order, i < data.virtuals.length
  cached : ∀ i a, s.reader.cache.get? i = some a ↔
    ∃ j, order[j]? = some i ∧ a = Arena.addressOf (before.objects.length + j)
  length : s.reader.heap.objects.length = before.objects.length + order.length
  old : ∀ k < before.objects.length, s.reader.heap.objects[k]? = before.objects[k]?.map
    (·.storeAll (data.resolve values final (data.writesTo values s.done (.old k))))
  new : ∀ j i info, order[j]? = some i → data.virtuals[i]? = some info →
    s.reader.heap.objects[before.objects.length + j]? = some (info.fresh.storeAll
      (data.resolve values final
        (s.storedTo info i ++ data.writesTo values s.done (.virtual i))))
  reached : ∀ w ∈ s.done, ∀ i, data.target? values w = some (.virtual i) → i ∈ order
  /-- While an object is under construction, no pending write has gone to it. -/
  apart : ∀ i ∈ s.partials.map (·.1), data.writesTo values s.done (.virtual i) = []
  readyStored : ∀ i ∈ order, ∀ info, data.virtuals[i]? = some info →
    ∀ e ∈ s.storedTo info i, e.2.Ready final
  readyWritten : ∀ w ∈ s.done, data.target? values w ≠ none → w.value.Ready final

end

variable {data : ResumeData} {values : List Value} {before : Arena} {final : VirtualCache}
  {order : List Nat}

namespace Laid

section Order

variable {s : Reading Arena} (h : s.Laid data values before final order)
include h

theorem allocated : Allocated data [] before.objects.length order s.reader.cache where
  nodup := h.nodup
  inRange := h.inRange
  missing _ _ := rfl
  cached i a := (h.cached i a).trans (or_iff_right nofun).symm

theorem mem_order_iff (i : Nat) : i ∈ order ↔ (s.reader.cache.get? i).isSome := by
  constructor
  · intro hi
    obtain ⟨j, hj⟩ := List.mem_iff_getElem?.mp hi
    rw [(h.cached i _).mpr ⟨j, hj, rfl⟩]
    rfl
  · intro hi
    obtain ⟨a, ha⟩ := Option.isSome_iff_exists.mp hi
    obtain ⟨j, hj, -⟩ := (h.cached i a).mp ha
    exact List.mem_of_getElem? hj

theorem length_order_of_full (hfull : s.reader.cache.Full data) :
    order.length = data.virtuals.length := by
  have hsub : List.range data.virtuals.length ⊆ order := fun i hi => by
    refine (h.mem_order_iff i).mpr (hfull.ready i ?_)
    rw [hfull.length]
    exact List.mem_range.mp hi
  have hge := List.nodup_range.length_le_of_subset hsub
  rw [List.length_range] at hge
  exact Nat.le_antisymm h.allocated.length_le hge

end Order

section Targets

variable {r : Reader Arena} {done : List PendingWrite} {partials : List (Nat × List (Place × Tagged))}
  (h : Laid data values before final order ⟨r, partials, done⟩)
  (hfits : Arena.Fits (before.objects.length + data.virtuals.length))
  (hbelow : data.PointsBelow values before.objects.length)
  (hlength : r.cache.length = data.virtuals.length) {w : PendingWrite}
  (hready : w.target.Ready r.cache)
include h hfits hlength hready

private theorem targetIndex?_virtual {i : Nat} (hw : w.target = .virtual i) :
    (i < data.virtuals.length ∧ data.target? values w = some (.virtual i) ∧
      ∃ j, order[j]? = some i ∧
        data.targetIndex? values r.cache w = some (before.objects.length + j)) ∨
    (data.target? values w = none ∧ data.targetIndex? values r.cache w = none) := by
  unfold ResumeData.target? ResumeData.targetIndex?
  rw [hw] at hready ⊢
  by_cases hi : i < data.virtuals.length
  · refine .inl ⟨hi, if_pos hi, ?_⟩
    obtain ⟨a, ha⟩ := Option.isSome_iff_exists.mp (hready (hlength ▸ hi))
    obtain ⟨j, hj, rfl⟩ := (h.cached i a).mp ha
    refine ⟨j, hj, ?_⟩
    have hlt : j < order.length := (List.getElem?_eq_some_iff.mp hj).1
    rw [ResumeData.meaning, ha]
    exact h.allocated.indexOf?_address hfits hlt
  · refine .inr ⟨if_neg hi, ?_⟩
    have hnone : r.cache.get? i = none := by
      rw [VirtualCache.get?, List.getElem?_eq_none (by omega)]
      rfl
    rw [ResumeData.meaning, hnone]
    rfl

omit h hfits hlength hready in
include hbelow in
private theorem targetIndex?_other (hw : ∀ i, w.target ≠ .virtual i) :
    (∃ k < before.objects.length, data.target? values w = some (.old k) ∧
      data.targetIndex? values r.cache w = some k) ∨
    (data.target? values w = none ∧ data.targetIndex? values r.cache w = none) := by
  have hsame : data.meaning values [] w.target = data.meaning values r.cache w.target := by
    cases ht : w.target with
    | virtual i => exact absurd ht (hw i)
    | _ => rfl
  have htarget : data.target? values w = (data.targetIndex? values r.cache w).map .old := by
    unfold ResumeData.target? ResumeData.targetIndex?
    rw [← hsame]
    cases ht : w.target with
    | virtual i => exact absurd ht (hw i)
    | _ =>
      dsimp only
      split <;> rfl
  rw [htarget]
  cases hindex : data.targetIndex? values r.cache w with
  | none => exact .inr ⟨rfl, rfl⟩
  | some k =>
    refine .inl ⟨k, ?_, rfl, rfl⟩
    unfold ResumeData.targetIndex? at hindex
    cases ha : data.meaning values r.cache w.target with
    | ref a =>
      rw [ha] at hindex
      exact ResumeData.lt_of_meaning hbelow hw ha hindex
    | _ => rw [ha] at hindex; cases hindex

include hbelow

theorem targetIndex?_eq_old {k : Nat} (hk : k < before.objects.length) :
    data.targetIndex? values r.cache w = some k ↔ data.target? values w = some (.old k) := by
  by_cases hw : ∃ i, w.target = .virtual i
  · obtain ⟨i, hi⟩ := hw
    rcases h.targetIndex?_virtual hfits hlength hready hi with
      ⟨-, htarget, j, -, hindex⟩ | ⟨htarget, hindex⟩
    · rw [htarget, hindex]
      simp only [Option.some.injEq, reduceCtorEq, iff_false]
      omega
    · simp [htarget, hindex]
  · rcases targetIndex?_other hbelow (fun i hi => hw ⟨i, hi⟩) with
      ⟨k', -, htarget, hindex⟩ | ⟨htarget, hindex⟩
    · rw [htarget, hindex]
      simp
    · simp [htarget, hindex]

theorem targetIndex?_eq_new {i j : Nat} (hj : order[j]? = some i) :
    data.targetIndex? values r.cache w = some (before.objects.length + j) ↔
      data.target? values w = some (.virtual i) := by
  by_cases hw : ∃ i, w.target = .virtual i
  · obtain ⟨i', hi'⟩ := hw
    rcases h.targetIndex?_virtual hfits hlength hready hi' with
      ⟨-, htarget, j', hj', hindex⟩ | ⟨htarget, hindex⟩
    · rw [htarget, hindex]
      simp only [Option.some.injEq, WriteTarget.virtual.injEq]
      constructor
      · intro hsame
        obtain rfl : j' = j := by omega
        exact Option.some.inj (hj'.symm.trans hj)
      · rintro rfl
        rw [h.allocated.index_eq hj' hj]
    · simp [htarget, hindex]
  · rcases targetIndex?_other hbelow (fun i hi => hw ⟨i, hi⟩) with
      ⟨k', hk', htarget, hindex⟩ | ⟨htarget, hindex⟩
    · rw [htarget, hindex]
      simp only [Option.some.injEq, reduceCtorEq, iff_false]
      omega
    · simp [htarget, hindex]

theorem targetIndex?_ne_none (htarget : data.target? values w ≠ none) :
    data.targetIndex? values r.cache w ≠ none := by
  by_cases hw : ∃ i, w.target = .virtual i
  · obtain ⟨i, hi⟩ := hw
    rcases h.targetIndex?_virtual hfits hlength hready hi with ⟨-, -, j, -, hindex⟩ | ⟨hnone, -⟩
    · simp [hindex]
    · exact absurd hnone htarget
  · rcases targetIndex?_other hbelow (fun i hi => hw ⟨i, hi⟩) with ⟨k, -, -, hindex⟩ | ⟨hnone, -⟩
    · rw [hindex]
      simp
    · exact absurd hnone htarget

theorem mem_order_of_target? {i : Nat} (htarget : data.target? values w = some (.virtual i)) :
    i ∈ order := by
  by_cases hw : ∃ i, w.target = .virtual i
  · obtain ⟨i', hi'⟩ := hw
    rcases h.targetIndex?_virtual hfits hlength hready hi' with ⟨-, hsame, j, hj, -⟩ | ⟨hnone, -⟩
    · rw [hsame] at htarget
      cases htarget
      exact List.mem_of_getElem? hj
    · rw [hnone] at htarget
      cases htarget
  · rcases targetIndex?_other (r := r) hbelow (fun i hi => hw ⟨i, hi⟩) with
      ⟨k, -, hsame, -⟩ | ⟨hnone, -⟩
    · rw [hsame] at htarget
      cases htarget
    · rw [hnone] at htarget
      cases htarget

end Targets

section Steps

variable {r : Reader Arena} {done : List PendingWrite} {partials : List (Nat × List (Place × Tagged))}

theorem start (h : Laid data values before final order ⟨r, partials, done⟩)
    (hs : Sound data ⟨r, partials, done⟩) {i : Nat} {info : VirtualInfo}
    (hinfo : data.virtuals[i]? = some info) (hnew : r.cache.get? i = none) :
    Laid data values before final (order ++ [i])
      ⟨r.remember (info.allocate r.heap).2 i (info.allocate r.heap).1, (i, []) :: partials, done⟩ := by
  have hlt : i < data.virtuals.length := (List.getElem?_eq_some_iff.mp hinfo).1
  have hnot := (h.allocated.missing_of_get?_none hnew).1
  have hunwritten : data.writesTo values done (.virtual i) = [] := by
    refine List.eq_nil_iff_forall_not_mem.mpr fun e he => ?_
    obtain ⟨w, hw, htarget, -⟩ := ResumeData.exists_of_mem_writesTo he
    exact hnot (h.reached w hw i htarget)
  have hheap : (info.allocate r.heap).2.objects = r.heap.objects ++ [info.fresh] := by
    rw [VirtualInfo.allocate_eq]
    rfl
  have haddress : (info.allocate r.heap).1 =
      Arena.addressOf (before.objects.length + order.length) := by
    rw [VirtualInfo.allocate_eq, ← h.length]
    rfl
  have hallocated := h.allocated.concat hnew hlt hs.length
  have hget (j : Nat) : (order ++ [i])[j]? =
      if j = order.length then some i else order[j]? := by
    rw [List.getElem?_append]
    grind
  have hlength := h.length
  dsimp only at hlength
  exact {
    nodup := hallocated.nodup
    inRange := hallocated.inRange
    cached := fun j a => by
      dsimp only [Reader.remember]
      rw [haddress]
      exact hallocated.cached_of_nil j a
    length := by
      dsimp only [Reader.remember]
      rw [hheap, List.length_append, List.length_append, hlength]
      rfl
    old := fun k hk => by
      dsimp only [Reader.remember]
      rw [hheap, List.getElem?_append_left (by omega)]
      exact h.old k hk
    new := fun j i' info' hj hinfo' => by
      dsimp only [Reader.remember]
      rw [hget] at hj
      rw [hheap, storedTo_cons]
      split at hj
      · rename_i hlast
        obtain rfl := Option.some.inj hj
        obtain rfl := Option.some.inj (hinfo.symm.trans hinfo')
        rw [if_pos rfl, hunwritten, hlast, ← hlength, List.getElem?_concat_length]
        rfl
      · have hlt' : j < order.length := (List.getElem?_eq_some_iff.mp hj).1
        have hne : i' ≠ i := fun hi => hnot (hi ▸ List.mem_of_getElem? hj)
        rw [if_neg hne, List.getElem?_append_left (by omega)]
        exact h.new j i' info' hj hinfo'
    reached := fun w hw j hj => List.mem_append_left _ (h.reached w hw j hj)
    apart := fun j hj => by
      rcases List.mem_cons.mp hj with rfl | hmem
      · exact hunwritten
      · exact h.apart j hmem
    readyStored := fun j hj info' hinfo' e he => by
      rw [storedTo_cons] at he
      split at he
      · exact absurd he (List.not_mem_nil)
      · rename_i hne
        rcases List.mem_append.mp hj with hj | hj
        · exact h.readyStored j hj info' hinfo' e he
        · exact absurd (List.mem_singleton.mp hj) hne
    readyWritten := h.readyWritten }

theorem store (hfits : Arena.Fits (before.objects.length + data.virtuals.length)) {i : Nat}
    {stored : List (Place × Tagged)} {p : Place} {t : Tagged} {object : UInt64}
    (h : Laid data values before final order ⟨r, (i, stored) :: partials, done⟩)
    {info : VirtualInfo} (hinfo : data.virtuals[i]? = some info)
    (hobject : r.cache.get? i = some object) (hready : t.Ready r.cache)
    (hfinal : r.cache.Grows final) :
    Laid data values before final order
      ⟨{ r with heap := VirtualHeap.store r.heap object p (data.meaning values r.cache t) },
        (i, stored ++ [(p, t)]) :: partials, done⟩ := by
  obtain ⟨j, hj, rfl⟩ := (h.cached i object).mp hobject
  have hindex := h.allocated.indexOf?_address hfits (List.getElem?_eq_some_iff.mp hj).1
  have hunwritten := h.apart i (List.mem_cons_self ..)
  dsimp only at hunwritten
  rw [Arena.store_eq]
  have hobjects (k : Nat) := Arena.getElem?_modify r.heap
    (Arena.addressOf (before.objects.length + j)) (·.store p (data.meaning values r.cache t)) k
  rw [hindex] at hobjects
  exact {
    nodup := h.nodup
    inRange := h.inRange
    cached := h.cached
    length := (Arena.length_modify ..).trans h.length
    old := fun k hk => by
      dsimp only
      have hne : some (before.objects.length + j) ≠ some k := by
        simp only [ne_eq, Option.some.injEq]
        omega
      rw [hobjects, if_neg hne]
      exact h.old k hk
    new := fun j' i' info' hj' hinfo' => by
      have hold := h.new j' i' info' hj' hinfo'
      dsimp only at hold ⊢
      rw [storedTo_cons] at hold ⊢
      rw [hobjects]
      by_cases hi : i' = i
      · subst hi
        obtain rfl := h.allocated.index_eq hj hj'
        rw [if_pos rfl] at hold ⊢
        rw [if_pos rfl, hold, hunwritten, List.append_nil, List.append_nil,
          ResumeData.resolve_concat, HeapObject.storeAll_concat,
          hready.meaning_eq hfinal data values]
        rfl
      · have hne : j ≠ j' := fun hjj => by
          subst hjj
          exact hi (Option.some.inj (hj'.symm.trans hj))
        rw [if_neg hi] at hold ⊢
        rw [if_neg (by simpa using hne)]
        exact hold
    reached := h.reached
    apart := h.apart
    readyStored := fun j' hj' info' hinfo' e he => by
      have hold := h.readyStored j' hj' info' hinfo' e
      rw [storedTo_cons] at hold he
      split at he
      · rename_i hi
        rw [if_pos hi] at hold
        rcases List.mem_append.mp he with he | he
        · exact hold he
        · obtain rfl := List.mem_singleton.mp he
          exact hready.grows hfinal
      · rename_i hi
        rw [if_neg hi] at hold
        exact hold he
    readyWritten := h.readyWritten }

theorem finish {i : Nat} {info : VirtualInfo}
    (h : Laid data values before final order ⟨r, (i, info.contents) :: partials, done⟩)
    (hs : Sound data ⟨r, (i, info.contents) :: partials, done⟩)
    (hinfo : data.virtuals[i]? = some info) :
    Laid data values before final order ⟨r, partials, done⟩ := by
  have hstored := storedTo_finished hs hinfo
  exact {
    nodup := h.nodup
    inRange := h.inRange
    cached := h.cached
    length := h.length
    old := h.old
    new := fun j i' info' hj hinfo' => by
      rw [← hstored i' info' hinfo']
      exact h.new j i' info' hj hinfo'
    reached := h.reached
    apart := fun j hj => h.apart j (List.mem_cons_of_mem _ hj)
    readyStored := fun j hj info' hinfo' e he => by
      rw [← hstored j info' hinfo'] at he
      exact h.readyStored j hj info' hinfo' e he
    readyWritten := h.readyWritten }

theorem perform (hfits : Arena.Fits (before.objects.length + data.virtuals.length))
    (hbelow : data.PointsBelow values before.objects.length)
    (h : Laid data values before final order ⟨r, [], done⟩) (hs : Sound data ⟨r, [], done⟩)
    {w : PendingWrite} (htarget : w.target.Ready r.cache)
    (hvalue : ∀ a, data.meaning values r.cache w.target = .ref a → w.value.Ready r.cache)
    (hfinal : r.cache.Grows final) :
    Laid data values before final order ⟨r.perform data values w, [], done ++ [w]⟩ := by
  have hobjects := r.getElem?_perform data values w
  have hold (k : Nat) (hk : k < before.objects.length) :=
    h.targetIndex?_eq_old hfits hbelow hs.length htarget hk
  have hnew {i j : Nat} (hj : order[j]? = some i) :=
    h.targetIndex?_eq_new hfits hbelow hs.length htarget hj
  have hmeaning {target : WriteTarget} (ht : data.target? values w = some target) :
      w.value.Ready r.cache := by
    have hindex := h.targetIndex?_ne_none hfits hbelow hs.length htarget (by rw [ht]; simp)
    obtain ⟨a, ha⟩ := ResumeData.exists_ref_of_targetIndex? hindex
    exact hvalue a ha
  exact {
    nodup := h.nodup
    inRange := h.inRange
    cached := fun i a => by
      rw [Reader.cache_perform]
      exact h.cached i a
    length := (Reader.length_perform ..).trans h.length
    old := fun k hk => by
      have hk' := h.old k hk
      dsimp only at hk' ⊢
      rw [hobjects, ResumeData.writesTo_concat, hk']
      by_cases htarget? : data.target? values w = some (.old k)
      · rw [if_pos ((hold k hk).mpr htarget?), if_pos htarget?, ResumeData.resolve_concat,
          (hmeaning htarget?).meaning_eq hfinal data values, Option.map_map]
        simp only [HeapObject.storeAll_concat]
        rfl
      · rw [if_neg fun hc => htarget? ((hold k hk).mp hc), if_neg htarget?, List.append_nil]
    new := fun j i info hj hinfo => by
      have hj' := h.new j i info hj hinfo
      dsimp only at hj' ⊢
      rw [hobjects, ResumeData.writesTo_concat, hj']
      by_cases htarget? : data.target? values w = some (.virtual i)
      · rw [if_pos ((hnew hj).mpr htarget?), if_pos htarget?, ← List.append_assoc,
          ResumeData.resolve_concat, HeapObject.storeAll_concat,
          (hmeaning htarget?).meaning_eq hfinal data values]
        rfl
      · rw [if_neg fun hc => htarget? ((hnew hj).mp hc), if_neg htarget?, List.append_nil]
        rfl
    reached := fun w' hw' i hi => by
      rcases List.mem_append.mp hw' with hw' | hw'
      · exact h.reached w' hw' i hi
      · obtain rfl := List.mem_singleton.mp hw'
        exact h.mem_order_of_target? hfits hbelow hs.length htarget hi
    apart := fun i hi => absurd hi (List.not_mem_nil)
    readyStored := h.readyStored
    readyWritten := fun w' hw' hw => by
      rcases List.mem_append.mp hw' with hw' | hw'
      · exact h.readyWritten w' hw' hw
      · obtain rfl := List.mem_singleton.mp hw'
        obtain ⟨target, ht⟩ := Option.ne_none_iff_exists'.mp hw
        exact (hmeaning ht).grows hfinal }

theorem of_step (hfits : Arena.Fits (before.objects.length + data.virtuals.length))
    (hbelow : data.PointsBelow values before.objects.length) {s s' : Reading Arena}
    (hstep : Step data values s s') (hs : s.Sound data)
    (h : s.Laid data values before final order) (hfinal : s'.reader.cache.Grows final) :
    ∃ order', s'.Laid data values before final order' := by
  cases hstep with
  | start i info hinfo hnew => exact ⟨_, h.start hs hinfo hnew⟩
  | store info hinfo hcontents hobject hready =>
    exact ⟨_, h.store hfits hinfo hobject hready hfinal⟩
  | finish info hinfo => exact ⟨_, h.finish hs hinfo⟩
  | perform w htarget hvalue =>
    rw [Reader.cache_perform] at hfinal
    exact ⟨_, h.perform hfits hbelow hs htarget hvalue hfinal⟩

theorem of_steps (hfits : Arena.Fits (before.objects.length + data.virtuals.length))
    (hbelow : data.PointsBelow values before.objects.length) {s s' : Reading Arena}
    (hsteps : Steps data values s s') (hs : s.Sound data)
    (h : s.Laid data values before final order) (hfinal : s'.reader.cache.Grows final) :
    ∃ order', s'.Laid data values before final order' := by
  induction hsteps with
  | refl => exact ⟨order, h⟩
  | tail hsteps hstep ih =>
    obtain ⟨order', h'⟩ := ih (hstep.grows.trans hfinal)
    exact h'.of_step hfits hbelow hstep (Steps.sound hsteps hs) hfinal

end Steps

end Laid

theorem laid_start (before : Arena) (final : VirtualCache) :
    Laid data values before final [] ⟨Reader.start data before, [], []⟩ where
  nodup := List.nodup_nil
  inRange _ hi := absurd hi (List.not_mem_nil)
  cached i a := by
    have hnone : VirtualCache.get? (List.replicate data.virtuals.length none) i = none := by
      unfold VirtualCache.get?
      rw [List.getElem?_replicate]
      split <;> rfl
    simp [Reader.start, hnone]
  length := rfl
  old k hk := by
    have hstores (o : HeapObject) : o.storeAll [] = o := rfl
    simp [Reader.start, ResumeData.writesTo, ResumeData.resolve, hstores]
  new _ _ _ hj := by cases hj
  reached _ hw := absurd hw (List.not_mem_nil)
  apart _ hi := absurd hi (List.not_mem_nil)
  readyStored _ hi := absurd hi (List.not_mem_nil)
  readyWritten _ hw := absurd hw (List.not_mem_nil)

/-- Whatever is read from a fresh cache on, the arena is known. -/
theorem exists_laid {before : Arena}
    (hfits : Arena.Fits (before.objects.length + data.virtuals.length))
    (hbelow : data.PointsBelow values before.objects.length) {r : Reader Arena}
    {done : List PendingWrite}
    (hsteps : Steps data values ⟨Reader.start data before, [], []⟩ ⟨r, [], done⟩) :
    ∃ order, Laid data values before r.cache order ⟨r, [], done⟩ :=
  (laid_start before r.cache).of_steps hfits hbelow hsteps (sound_start data before) (.refl _)

end Reading

end HotLoop
