import HotLoop.Proofs.Resume.Layout
import HotLoop.Proofs.Resume.Recursion

/-!
# The objects that a reader builds

A reader may be asked for entries, for objects and for the whole frame in any order, and it may
start from a cache that others have filled. Each object is built once, behind those that are there
already, and when the reader has answered it holds what the resume data describes. Meanwhile the
objects under construction hold the entries that have been stored so far; what these mean does not
change any more.
-/

namespace HotLoop

def ResumeData.info (data : ResumeData) (i : Nat) : VirtualInfo := data.virtuals[i]?.getD default

theorem ResumeData.info_eq {data : ResumeData} {i : Nat} {info : VirtualInfo}
    (h : data.virtuals[i]? = some info) : data.info i = info := by
  rw [ResumeData.info, h]
  rfl

/-- The entry that a slot has its value from: the last one of a field, the only one of an item. -/
def VirtualInfo.content? : VirtualInfo → Slot → Option Tagged
  | .struct _ fields, .field name => (fields.reverse.find? (·.1.name = name)).map (·.2)
  | .array _ items, .item i => items[i]?
  | _, _ => none

section Contents

variable (f : Tagged → Value)

theorem lastAt_fields (fields : List (FieldDescr × Tagged)) (name : String) :
    lastAt (.field name) (fields.map fun e => (.field e.1, f e.2)) =
      (fields.reverse.find? (·.1.name = name)).map (f ·.2) := by
  induction fields using List.reverseRecOn with
  | nil => rfl
  | append_singleton fields e ih =>
    rw [List.map_append, lastAt_append, ih, List.reverse_append]
    by_cases he : e.1.name = name <;> simp [lastAt, Place.slot, he]

theorem lastAt_items (items : List Tagged) (i : Nat) :
    lastAt (.item i) (items.zipIdx.map fun e => (.item e.2, f e.1)) = items[i]?.map f := by
  induction items using List.reverseRecOn with
  | nil => rfl
  | append_singleton items t ih =>
    rw [List.zipIdx_append, List.map_append, lastAt_append, ih, Nat.zero_add]
    rcases Nat.lt_trichotomy i items.length with hi | rfl | hi
    · simp [lastAt, Place.slot, List.getElem?_append_left hi, Nat.ne_of_gt hi]
    · simp [lastAt, Place.slot]
    · have hout : (items ++ [t])[i]? = none := by
        rw [List.getElem?_eq_none]
        rw [List.length_append]
        exact hi
      simp [lastAt, Place.slot, List.getElem?_eq_none (Nat.le_of_lt hi), Nat.ne_of_lt hi, hout]

theorem lastAt_eq_none {stores : List (Place × Value)} {s : Slot}
    (h : ∀ e ∈ stores, e.1.slot ≠ s) : lastAt s stores = none := by
  induction stores using List.reverseRecOn with
  | nil => rfl
  | append_singleton stores e ih =>
    have hlast : lastAt s [e] = none := if_neg (h e (by simp))
    rw [lastAt_append, hlast, Option.none_or]
    exact ih fun e' he' => h e' (List.mem_append_left _ he')

theorem HeapObject.has_field (o : HeapObject) (name : String) : o.Has (.field name) := trivial

theorem VirtualInfo.at?_fresh_storeAll (info : VirtualInfo) (s : Slot) :
    (info.fresh.storeAll (info.contents.map fun e => (e.1, f e.2))).at? s =
      (info.content? s).map f := by
  rw [HeapObject.at?_storeAll]
  cases info with
  | struct size fields =>
    have hcontents : (contents (.struct size fields)).map (fun e => (e.1, f e.2)) =
        fields.map fun e => (.field e.1, f e.2) := List.map_map
    rw [hcontents]
    cases s with
    | field name =>
      have hfresh : (fresh (.struct size fields)).at? (.field name) = none := rfl
      rw [if_pos (HeapObject.has_field ..), lastAt_fields, hfresh, Option.or_none, content?,
        Option.map_map]
      rfl
    | item i => exact if_neg (Nat.not_lt_zero i)
  | array descr items =>
    have hcontents : (contents (.array descr items)).map (fun e => (e.1, f e.2)) =
        items.zipIdx.map fun e => (.item e.2, f e.1) := List.map_map
    rw [hcontents]
    cases s with
    | field name =>
      rw [if_pos (HeapObject.has_field ..), lastAt_eq_none]
      · rfl
      · intro e he
        obtain ⟨e', -, rfl⟩ := List.mem_map.mp he
        exact nofun
    | item i =>
      have hhas : (fresh (.array descr items)).Has (.item i) ↔ i < items.length := by
        unfold HeapObject.Has fresh
        rw [List.length_replicate]
      by_cases hi : i < items.length
      · rw [if_pos (hhas.mpr hi), lastAt_items, content?, List.getElem?_eq_getElem hi]
        rfl
      · have hfresh : (fresh (.array descr items)).at? (.item i) = none :=
          List.getElem?_eq_none (Nat.le_of_not_lt (hhas.not.mpr hi))
        rw [if_neg (hhas.not.mpr hi), hfresh, content?, List.getElem?_eq_none (Nat.le_of_not_lt hi)]
        rfl

end Contents

namespace Reading

section

variable (data : ResumeData) (values : List Value)

/-- A virtual object with what has been stored to it so far; `final` is the cache in the end. -/
def object (final : VirtualCache) (s : Reading Arena) (i : Nat) : HeapObject :=
  (data.info i).fresh.storeAll (data.resolve values final (s.storedTo (data.info i) i))

/-- What has been built since `start`: `order` are the virtual objects in the order of their
allocation. -/
structure Built (start : Reader Arena) (final : VirtualCache) (order : List Nat)
    (s : Reading Arena) : Prop where
  nodup : order.Nodup
  inRange : ∀ i ∈ order, i < data.virtuals.length
  missing : ∀ i ∈ order, start.cache.get? i = none
  cached : ∀ i a, s.reader.cache.get? i = some a ↔ start.cache.get? i = some a ∨
    ∃ k, order[k]? = some i ∧ a = Arena.addressOf (start.heap.objects.length + k)
  objects : s.reader.heap.objects = start.heap.objects ++ order.map (s.object data values final)
  partials : ∀ i ∈ s.partials.map (·.1), i ∈ order
  ready : ∀ i ∈ order, ∀ e ∈ s.storedTo (data.info i) i, e.2.Ready final

end

variable {data : ResumeData} {values : List Value} {start : Reader Arena} {final : VirtualCache}
  {order : List Nat}

theorem object_cons (r : Reader Arena) (partials : List (Nat × List (Place × Tagged)))
    (done : List PendingWrite) (i i' : Nat) (stored : List (Place × Tagged)) :
    object data values final ⟨r, (i, stored) :: partials, done⟩ i' =
      if i' = i then (data.info i').fresh.storeAll (data.resolve values final stored)
      else object data values final ⟨r, partials, done⟩ i' := by
  unfold object
  rw [storedTo_cons]
  split <;> rfl

theorem object_concat (r r' : Reader Arena) (partials : List (Nat × List (Place × Tagged)))
    (done : List PendingWrite) (i i' : Nat) (stored : List (Place × Tagged)) (p : Place)
    (t : Tagged) :
    object data values final ⟨r', (i, stored ++ [(p, t)]) :: partials, done⟩ i' =
      if i' = i
      then (object data values final ⟨r, (i, stored) :: partials, done⟩ i').store p
        (data.meaning values final t)
      else object data values final ⟨r, (i, stored) :: partials, done⟩ i' := by
  rw [object_cons, object_cons, ResumeData.resolve_concat, HeapObject.storeAll_concat]
  split <;> rfl

namespace Built

theorem init (start : Reader Arena) : Built data values start final [] ⟨start, [], []⟩ where
  nodup := List.nodup_nil
  inRange i hi := by cases hi
  missing i hi := by cases hi
  cached i a := by simp
  objects := (List.append_nil _).symm
  partials i hi := by cases hi
  ready i hi := by cases hi

section Order

variable {s : Reading Arena} (h : Built data values start final order s)
include h

theorem allocated :
    Allocated data start.cache start.heap.objects.length order s.reader.cache where
  nodup := h.nodup
  inRange := h.inRange
  missing := h.missing
  cached := h.cached

theorem getElem?_virtuals {i : Nat} (hi : i ∈ order) : data.virtuals[i]? = some (data.info i) := by
  have hinfo := List.getElem?_eq_getElem (h.inRange i hi)
  rw [hinfo, ResumeData.info_eq hinfo]

end Order

section Steps

variable {r : Reader Arena} {partials : List (Nat × List (Place × Tagged))}
  {done : List PendingWrite} {i : Nat} {info : VirtualInfo}

theorem start_object (h : Built data values start final order ⟨r, partials, done⟩)
    (hs : Sound data ⟨r, partials, done⟩) (hinfo : data.virtuals[i]? = some info)
    (hnew : r.cache.get? i = none) :
    let allocated := info.allocate r.heap
    Built data values start final (order ++ [i])
      ⟨r.remember allocated.2 i allocated.1, (i, []) :: partials, done⟩ := by
  intro allocated
  have hlt : i < data.virtuals.length := (List.getElem?_eq_some_iff.mp hinfo).1
  have hnot := (h.allocated.missing_of_get?_none hnew).1
  have hlength : r.heap.objects.length = start.heap.objects.length + order.length := by
    rw [h.objects, List.length_append, List.length_map]
  have haddress : (info.allocate r.heap).1 =
      Arena.addressOf (start.heap.objects.length + order.length) := by
    rw [VirtualInfo.allocate_eq, ← hlength]
    rfl
  have hallocated := h.allocated.concat hnew hlt hs.length
  rw [← haddress] at hallocated
  exact {
    nodup := hallocated.nodup
    inRange := hallocated.inRange
    missing := hallocated.missing
    cached := hallocated.cached
    objects := by
      have hobjects : (info.allocate r.heap).2.objects = r.heap.objects ++ [info.fresh] := by
        rw [VirtualInfo.allocate_eq]
        rfl
      dsimp only [Reader.remember]
      rw [hobjects, h.objects, List.map_append, List.append_assoc]
      congr 2
      · refine List.map_congr_left fun j hj => ?_
        have hne : j ≠ i := fun hji => hnot (hji ▸ hj)
        rw [object_cons, if_neg hne]
        rfl
      · rw [List.map_singleton, object_cons, if_pos rfl, ResumeData.info_eq hinfo]
        rfl
    partials := fun j hj => by
      rcases List.mem_cons.mp hj with rfl | hmem
      · exact List.mem_append_right _ (List.mem_singleton_self _)
      · exact List.mem_append_left _ (h.partials j hmem)
    ready := fun j hj e he => by
      rw [storedTo_cons] at he
      split at he
      · cases he
      · rename_i hji
        rcases List.mem_append.mp hj with hj | hj
        · exact h.ready j hj e he
        · exact absurd (List.mem_singleton.mp hj) hji }

theorem store (hfits : Arena.Fits (start.heap.objects.length + data.virtuals.length))
    {stored : List (Place × Tagged)} {p : Place} {t : Tagged} {a : UInt64}
    (h : Built data values start final order ⟨r, (i, stored) :: partials, done⟩)
    (hobject : r.cache.get? i = some a) (hready : t.Ready r.cache)
    (hfinal : r.cache.Grows final) :
    Built data values start final order
      ⟨{ r with heap := VirtualHeap.store r.heap a p (data.meaning values r.cache t) },
        (i, stored ++ [(p, t)]) :: partials, done⟩ := by
  obtain ⟨k, hk⟩ := List.mem_iff_getElem?.mp (h.partials i (List.mem_cons_self ..))
  have hlt := (List.getElem?_eq_some_iff.mp hk).1
  obtain rfl : a = Arena.addressOf (start.heap.objects.length + k) :=
    Option.some.inj (hobject.symm.trans (h.allocated.address hk))
  have hindex := h.allocated.indexOf?_address hfits hlt
  exact {
    nodup := h.nodup
    inRange := h.inRange
    missing := h.missing
    cached := h.cached
    objects := by
      dsimp only
      refine List.ext_getElem? fun n => ?_
      rw [Arena.store_eq, Arena.getElem?_modify, hindex, h.objects]
      by_cases hn : n < start.heap.objects.length
      · have hne : some (start.heap.objects.length + k) ≠ some n := by
          simp only [ne_eq, Option.some.injEq]
          omega
        rw [if_neg hne, List.getElem?_append_left hn, List.getElem?_append_left hn]
      · obtain ⟨k', rfl⟩ := Nat.exists_eq_add_of_le (Nat.le_of_not_lt hn)
        rw [List.getElem?_append_right (Nat.le_add_right ..),
          List.getElem?_append_right (Nat.le_add_right ..), Nat.add_sub_cancel_left,
          List.getElem?_map, List.getElem?_map]
        by_cases hkk : k = k'
        · subst hkk
          rw [if_pos rfl, hk, Option.map_some, Option.map_some, Option.map_some, object_concat r,
            if_pos rfl, hready.meaning_eq hfinal data values]
        · have hne : some (start.heap.objects.length + k) ≠
              some (start.heap.objects.length + k') := by
            simpa using hkk
          rw [if_neg hne]
          refine Option.map_congr fun j hj => ?_
          have hji : j ≠ i := fun hji => hkk (h.allocated.index_eq hk (hji ▸ hj))
          rw [object_concat r, if_neg hji]
    partials := h.partials
    ready := fun j hj e he => by
      have hold := h.ready j hj e
      rw [storedTo_cons] at hold he
      split at he
      · rename_i hji
        rw [if_pos hji] at hold
        rcases List.mem_append.mp he with he | he
        · exact hold he
        · obtain rfl := List.mem_singleton.mp he
          exact hready.grows hfinal
      · rename_i hji
        rw [if_neg hji] at hold
        exact hold he }

theorem finish (h : Built data values start final order ⟨r, (i, info.contents) :: partials, done⟩)
    (hs : Sound data ⟨r, (i, info.contents) :: partials, done⟩)
    (hinfo : data.virtuals[i]? = some info) :
    Built data values start final order ⟨r, partials, done⟩ := by
  have hstored (j : Nat) (hj : j ∈ order) :=
    storedTo_finished hs hinfo j (data.info j) (h.getElem?_virtuals hj)
  exact {
    nodup := h.nodup
    inRange := h.inRange
    missing := h.missing
    cached := h.cached
    objects := by
      refine h.objects.trans (congrArg _ (List.map_congr_left fun j hj => ?_))
      unfold object
      rw [hstored j hj]
    partials := fun j hj => h.partials j (List.mem_cons_of_mem _ hj)
    ready := fun j hj e he => h.ready j hj e (hstored j hj ▸ he) }

end Steps

omit order in
theorem done_of_step {s s' : Reading Arena} (h : Step data values s s') (hdone : s'.done = []) :
    s.done = [] := by
  cases h with
  | perform w => simp at hdone
  | _ => exact hdone

/-- As long as no pending write is performed, every step goes on building. -/
theorem of_step (hfits : Arena.Fits (start.heap.objects.length + data.virtuals.length))
    {s s' : Reading Arena} (hstep : Step data values s s') (hdone : s'.done = [])
    (hs : s.Sound data) (h : Built data values start final order s)
    (hfinal : s'.reader.cache.Grows final) :
    ∃ new, Built data values start final (order ++ new) s' := by
  cases hstep with
  | start i info hinfo hnew => exact ⟨[i], h.start_object hs hinfo hnew⟩
  | store info hinfo hcontents hobject hready =>
    exact ⟨[], (List.append_nil order).symm ▸ h.store hfits hobject hready hfinal⟩
  | finish info hinfo => exact ⟨[], (List.append_nil order).symm ▸ h.finish hs hinfo⟩
  | perform w => simp at hdone

theorem of_steps (hfits : Arena.Fits (start.heap.objects.length + data.virtuals.length))
    {s s' : Reading Arena} (hsteps : Steps data values s s') (hdone : s'.done = [])
    (hs : s.Sound data) (h : Built data values start final order s)
    (hfinal : s'.reader.cache.Grows final) :
    ∃ new, Built data values start final (order ++ new) s' := by
  induction hsteps with
  | refl => exact ⟨[], (List.append_nil order).symm ▸ h⟩
  | tail hinit hlast ih =>
    have hmiddle : Steps data values s _ := hinit
    obtain ⟨new, hnew⟩ := ih (done_of_step hlast hdone) (hlast.grows.trans hfinal)
    obtain ⟨new', hnew'⟩ := hnew.of_step hfits hlast hdone (hmiddle.sound hs) hfinal
    exact ⟨new ++ new', List.append_assoc .. ▸ hnew'⟩

end Built

end Reading

/--
What a reader has done between two moments at which no object was under construction: it has built
the virtual objects of `built`, and nothing else.
-/
structure Reader.Builds (data : ResumeData) (values : List Value) (before after : Reader Arena)
    (built : List Nat) : Prop where
  nodup : built.Nodup
  mem_iff : ∀ i, i ∈ built ↔ before.cache.get? i = none ∧ (after.cache.get? i).isSome
  kept : before.cache.Grows after.cache
  unchanged : before.heap.objects <+: after.heap.objects
  length : after.heap.objects.length = before.heap.objects.length + built.length
  address : ∀ k i, built[k]? = some i →
    after.cache.get? i = some (Arena.addressOf (before.heap.objects.length + k))
  /-- The new objects are complete: what their slots hold are the entries that are described. -/
  filled : ∀ i ∈ built, ∃ info a, data.virtuals[i]? = some info ∧ after.cache.get? i = some a ∧
    (∀ name, after.heap.field? a name =
      (info.content? (.field name)).map (data.meaning values after.cache)) ∧
    (∀ n, after.heap.item? a n =
      (info.content? (.item n)).map (data.meaning values after.cache)) ∧
    ∀ e ∈ info.contents, e.2.Ready after.cache

namespace Reading

variable {data : ResumeData} {values : List Value} {start before after : Reader Arena}
  {order built : List Nat}

section Finished

variable (h : Built data values start after.cache order ⟨after, [], []⟩)
  (hfits : Arena.Fits (start.heap.objects.length + data.virtuals.length))
include h hfits

theorem Built.at?_address {i k : Nat} (hk : order[k]? = some i) (s : Slot) :
    after.heap.at? (Arena.addressOf (start.heap.objects.length + k)) s =
      ((data.info i).content? s).map (data.meaning values after.cache) := by
  have hlt := (List.getElem?_eq_some_iff.mp hk).1
  have hle := h.allocated.length_le
  rw [Arena.at?_addressOf hfits (by omega), h.objects,
    List.getElem?_append_right (Nat.le_add_right ..), Nat.add_sub_cancel_left, List.getElem?_map,
    hk]
  exact (data.info i).at?_fresh_storeAll (data.meaning values after.cache) s

end Finished

theorem exists_builds (hs : Sound data ⟨start, [], []⟩)
    (hfits : Arena.Fits (start.heap.objects.length + data.virtuals.length))
    (hbefore : Steps data values ⟨start, [], []⟩ ⟨before, [], []⟩)
    (hafter : Steps data values ⟨before, [], []⟩ ⟨after, [], []⟩) :
    ∃ built, Reader.Builds data values before after built := by
  -- all objects since the start are described by what their entries mean now
  have hgrows : before.cache.Grows after.cache := hafter.grows
  have hinit : Built data values start after.cache [] ⟨start, [], []⟩ := .init start
  obtain ⟨old, hold⟩ := hinit.of_steps hfits hbefore rfl hs hgrows
  obtain ⟨new, hall⟩ := hold.of_steps hfits hafter rfl (hbefore.sound hs) (.refl _)
  rw [List.nil_append] at hold hall
  obtain ⟨-, hnodup, hdisjoint⟩ := List.nodup_append.mp hall.nodup
  have hobjects : after.heap.objects = before.heap.objects ++
      new.map (object data values after.cache ⟨after, [], []⟩) := by
    rw [hall.objects, hold.objects, List.map_append, List.append_assoc]
    rfl
  have hlength : before.heap.objects.length = start.heap.objects.length + old.length := by
    rw [hold.objects, List.length_append, List.length_map]
  have haddress (k i : Nat) (hk : new[k]? = some i) :
      (old ++ new)[old.length + k]? = some i := by
    rw [List.getElem?_append_right (Nat.le_add_right ..), Nat.add_sub_cancel_left, hk]
  refine ⟨new, hnodup, fun i => ⟨fun hi => ⟨?_, ?_⟩, fun ⟨hnone, hsome⟩ => ?_⟩, hgrows,
    ⟨_, hobjects.symm⟩, ?_, fun k i hk => ?_, fun i hi => ?_⟩
  · by_contra hthere
    obtain ⟨a, ha⟩ := Option.ne_none_iff_exists'.mp hthere
    rcases (hold.cached i a).mp ha with hstart | ⟨k, hk, -⟩
    · rw [hall.missing i (List.mem_append_right _ hi)] at hstart
      cases hstart
    · exact hdisjoint i (List.mem_of_getElem? hk) i hi rfl
  · obtain ⟨k, hk⟩ := List.mem_iff_getElem?.mp hi
    rw [hall.allocated.address (haddress k i hk)]
    rfl
  · obtain ⟨hnot, hmissing⟩ := hold.allocated.missing_of_get?_none hnone
    obtain ⟨a, ha⟩ := Option.isSome_iff_exists.mp hsome
    rcases (hall.cached i a).mp ha with hstart | ⟨k, hk, -⟩
    · rw [hmissing] at hstart
      cases hstart
    · exact (List.mem_append.mp (List.mem_of_getElem? hk)).resolve_left hnot
  · rw [hobjects, List.length_append, List.length_map]
  · rw [hlength, Nat.add_assoc]
    exact hall.allocated.address (haddress k i hk)
  · obtain ⟨k, hk⟩ := List.mem_iff_getElem?.mp hi
    have hall' := haddress k i hk
    have hmem := List.mem_append_right old hi
    exact ⟨data.info i, _, hall.getElem?_virtuals hmem, hall.allocated.address hall',
      fun name => hall.at?_address hfits hall' (.field name),
      fun n => hall.at?_address hfits hall' (.item n), hall.ready i hmem⟩

end Reading

end HotLoop
