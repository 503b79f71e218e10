import HotLoop.Proofs.Resume.Objects

/-!
# The cache while objects are allocated

Every virtual object is allocated once, behind the objects that the arena holds already. The order
of the allocations says which addresses have come into a cache, and the address of an object is
known from its place in that order.
-/

namespace HotLoop

namespace Reading

/--
The cache `cache` is `start` with the virtual objects of `order`, allocated one after another behind
`count` objects.
-/
structure Allocated (data : ResumeData) (start : VirtualCache) (count : Nat) (order : List Nat)
    (cache : VirtualCache) : Prop where
  nodup : order.Nodup
  inRange : ∀ i ∈ order, i < data.virtuals.length
  missing : ∀ i ∈ order, start.get? i = none
  cached : ∀ i a, cache.get? i = some a ↔
    start.get? i = some a ∨ ∃ k, order[k]? = some i ∧ a = Arena.addressOf (count + k)

namespace Allocated

variable {data : ResumeData} {start cache : VirtualCache} {count : Nat} {order : List Nat}
  (h : Allocated data start count order cache)
include h

theorem length_le : order.length ≤ data.virtuals.length := by
  have hsub : order ⊆ List.range data.virtuals.length := fun i hi =>
    List.mem_range.mpr (h.inRange i hi)
  have hle := h.nodup.length_le_of_subset hsub
  rwa [List.length_range] at hle

theorem index_eq {i k k' : Nat} (hk : order[k]? = some i) (hk' : order[k']? = some i) : k = k' :=
  (List.getElem?_inj (List.getElem?_eq_some_iff.mp hk).1 h.nodup).mp (hk.trans hk'.symm)

theorem address {i k : Nat} (hk : order[k]? = some i) :
    cache.get? i = some (Arena.addressOf (count + k)) := (h.cached i _).mpr (.inr ⟨k, hk, rfl⟩)

theorem indexOf?_address (hfits : Arena.Fits (count + data.virtuals.length)) {k : Nat}
    (hk : k < order.length) : Arena.indexOf? (Arena.addressOf (count + k)) = some (count + k) := by
  have hle := h.length_le
  exact Arena.indexOf?_addressOf hfits (by omega)

omit h in
/-- A cache that has been empty holds the allocated objects alone. -/
theorem cached_of_nil (h : Allocated data [] count order cache) (i : Nat) (a : UInt64) :
    cache.get? i = some a ↔ ∃ k, order[k]? = some i ∧ a = Arena.addressOf (count + k) :=
  (h.cached i a).trans (or_iff_right nofun)

/-- What is not in the cache has neither been allocated nor been there at the start. -/
theorem missing_of_get?_none {i : Nat} (hnew : cache.get? i = none) :
    i ∉ order ∧ start.get? i = none := by
  refine ⟨fun hi => ?_, ?_⟩
  · obtain ⟨k, hk⟩ := List.mem_iff_getElem?.mp hi
    cases hnew.symm.trans (h.address hk)
  · by_contra hsome
    obtain ⟨a, ha⟩ := Option.ne_none_iff_exists'.mp hsome
    cases hnew.symm.trans ((h.cached i a).mpr (.inl ha))

/-- The next object is put into the cache behind the others. -/
theorem concat {i : Nat} (hnew : cache.get? i = none) (hi : i < data.virtuals.length)
    (hlength : cache.length = data.virtuals.length) :
    Allocated data start count (order ++ [i])
      (cache.set i (some (Arena.addressOf (count + order.length)))) := by
  obtain ⟨hnot, hmissing⟩ := h.missing_of_get?_none hnew
  exact {
    nodup := List.nodup_append.mpr ⟨h.nodup, List.nodup_singleton i, fun a ha b hb hab =>
      hnot (List.mem_singleton.mp hb ▸ hab ▸ ha)⟩
    inRange := fun j hj => (List.mem_append.mp hj).elim (h.inRange j) fun hj =>
      List.mem_singleton.mp hj ▸ hi
    missing := fun j hj => (List.mem_append.mp hj).elim (h.missing j) fun hj =>
      List.mem_singleton.mp hj ▸ hmissing
    cached := fun j a => by
      have hget (k : Nat) : (order ++ [i])[k]? = if k = order.length then some i else order[k]? := by
        rw [List.getElem?_append]
        grind
      rw [VirtualCache.get?_set]
      by_cases hji : j = i
      · subst hji
        rw [if_pos ⟨rfl, hlength ▸ hi⟩, hmissing]
        constructor
        · rintro ⟨⟩
          exact .inr ⟨order.length, by rw [hget, if_pos rfl], rfl⟩
        · rintro (hsome | ⟨k, hk, rfl⟩)
          · cases hsome
          · rw [hget] at hk
            split at hk
            · rename_i hlast
              rw [hlast]
            · exact absurd (List.mem_of_getElem? hk) hnot
      · rw [if_neg fun hc => hji hc.1, h.cached j a]
        refine or_congr_right ⟨?_, ?_⟩
        · rintro ⟨k, hk, rfl⟩
          have hlt : k < order.length := (List.getElem?_eq_some_iff.mp hk).1
          exact ⟨k, by rw [hget, if_neg (by omega)]; exact hk, rfl⟩
        · rintro ⟨k, hk, rfl⟩
          rw [hget] at hk
          split at hk
          · exact absurd (Option.some.inj hk).symm hji
          · exact ⟨k, hk, rfl⟩ }

end Allocated

end Reading

end HotLoop
