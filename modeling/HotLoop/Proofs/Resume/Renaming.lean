import HotLoop.Proofs.Resume.Layout

/-!
# The order of building does not matter

Two readers of the same resume data may build virtual objects in different orders, and one of them
may build more than the other and perform the pending writes twice. Up to the addresses of the
virtual objects they read the same values and leave the same heap.
-/

namespace HotLoop

/-- Another address for a reference. -/
def Value.rename (rename : UInt64 → UInt64) : Value → Value
  | .ref a => .ref (rename a)
  | v => v

namespace Arena

/--
Of two heaps that have come from the same one, the second has an object for every new object of the
first, under another address, and it may have more. A slot holds the same in both but for the new
addresses, or else neither heap has been written to there.
-/
structure RenamedTo (before u f : Arena) (rename : UInt64 → UInt64) : Prop where
  old_le : before.objects.length ≤ u.objects.length
  le : u.objects.length ≤ f.objects.length
  fixes : ∀ a, (∀ k < u.objects.length, before.objects.length ≤ k → a ≠ addressOf k) → rename a = a
  fresh : ∀ k < u.objects.length, before.objects.length ≤ k →
    ∃ k' < f.objects.length, before.objects.length ≤ k' ∧ rename (addressOf k) = addressOf k'
  injective : ∀ k < u.objects.length, ∀ k' < u.objects.length, before.objects.length ≤ k →
    before.objects.length ≤ k' → rename (addressOf k) = rename (addressOf k') → k = k'
  old : ∀ k < before.objects.length, ∀ s,
    f.at? (addressOf k) s = (u.at? (addressOf k) s).map (·.rename rename) ∨
      u.at? (addressOf k) s = before.at? (addressOf k) s ∧
        f.at? (addressOf k) s = before.at? (addressOf k) s
  new : ∀ k < u.objects.length, before.objects.length ≤ k → ∀ s,
    f.at? (rename (addressOf k)) s = (u.at? (addressOf k) s).map (·.rename rename)

end Arena

/-- The address in the second cache of the object that has this address in the first one. -/
def VirtualCache.rename (u f : VirtualCache) (a : UInt64) : UInt64 :=
  match (List.range u.length).find? fun i => u.get? i = some a with
  | some i => (f.get? i).getD 0
  | none => a

theorem VirtualCache.rename_eq_self {u f : VirtualCache} {a : UInt64}
    (h : ∀ i, u.get? i ≠ some a) : u.rename f a = a := by
  unfold rename
  rw [List.find?_eq_none.mpr]
  intro i _ hi
  exact h i (of_decide_eq_true hi)

theorem VirtualCache.rename_of_get? {u f : VirtualCache} {a : UInt64} {i : Nat}
    (h : u.get? i = some a) (hinj : ∀ j, u.get? j = some a → j = i) :
    u.rename f a = (f.get? i).getD 0 := by
  unfold rename
  cases hfind : (List.range u.length).find? fun i => u.get? i = some a with
  | none =>
    have hi := List.find?_eq_none.mp hfind i (List.mem_range.mpr (lt_length_of_get? h))
    simp [h] at hi
  | some j =>
    have hj := List.find?_some hfind
    rw [hinj j (by simpa using hj)]

namespace Reading

variable {data : ResumeData} {values : List Value} {before : Arena}

theorem Laid.addressOf_injective {final : VirtualCache} {order : List Nat} {s : Reading Arena}
    (h : Laid data values before final order s)
    (hfits : Arena.Fits (before.objects.length + data.virtuals.length)) {j j' : Nat}
    (hj : j < order.length) (hj' : j' < order.length)
    (hsame : Arena.addressOf (before.objects.length + j) =
      Arena.addressOf (before.objects.length + j')) : j = j' := by
  have hindex := h.allocated.indexOf?_address hfits hj
  rw [hsame, h.allocated.indexOf?_address hfits hj'] at hindex
  have := Option.some.inj hindex
  omega

section

variable {orderU orderF : List Nat} {ru rf : Reader Arena} {done done' : List PendingWrite}
  (hfits : Arena.Fits (before.objects.length + data.virtuals.length))
  (hbelow : data.PointsBelow values before.objects.length)
  (hu : Laid data values before ru.cache orderU ⟨ru, [], done⟩)
  (hf : Laid data values before rf.cache orderF ⟨rf, [], done ++ done⟩)
  (hfull : rf.cache.Full data)

include hfits hu in
theorem rename_cached {i j : Nat} (hj : orderU[j]? = some i) :
    ru.cache.rename rf.cache (Arena.addressOf (before.objects.length + j)) =
      (rf.cache.get? i).getD 0 := by
  refine VirtualCache.rename_of_get? ((hu.cached i _).mpr ⟨j, hj, rfl⟩) fun i' hi' => ?_
  obtain ⟨j', hj', hsame⟩ := (hu.cached i' _).mp hi'
  have hlt := (List.getElem?_eq_some_iff.mp hj).1
  have hlt' := (List.getElem?_eq_some_iff.mp hj').1
  obtain rfl := hu.addressOf_injective hfits hlt hlt' hsame
  exact Option.some.inj (hj'.symm.trans hj)

include hfits hu in
theorem rename_of_indexOf? {a : UInt64}
    (ha : ∀ k, Arena.indexOf? a = some k → k < before.objects.length) :
    ru.cache.rename rf.cache a = a := by
  refine VirtualCache.rename_eq_self fun i hi => ?_
  obtain ⟨j, hj, rfl⟩ := (hu.cached i a).mp hi
  have := ha _ (hu.allocated.indexOf?_address hfits (List.getElem?_eq_some_iff.mp hj).1)
  omega

include hfits hbelow hu hfull in
theorem meaning_rename (hlength : ru.cache.length = data.virtuals.length) {t : Tagged}
    (ht : t.Ready ru.cache) :
    data.meaning values rf.cache t =
      (data.meaning values ru.cache t).rename (ru.cache.rename rf.cache) := by
  by_cases hvirtual : ∃ i, t = .virtual i
  · obtain ⟨i, rfl⟩ := hvirtual
    by_cases hi : i < data.virtuals.length
    · obtain ⟨a, ha⟩ := Option.isSome_iff_exists.mp (ht (hlength ▸ hi))
      obtain ⟨j, hj, rfl⟩ := (hu.cached i a).mp ha
      rw [ResumeData.meaning, ResumeData.meaning, ha, Value.rename]
      exact congrArg Value.ref (rename_cached hfits hu hj).symm
    · have hnone (cache : VirtualCache) (hcache : cache.length = data.virtuals.length) :
          cache.get? i = none := by
        rw [VirtualCache.get?, List.getElem?_eq_none (by omega)]
        rfl
      have hzero : ru.cache.rename rf.cache 0 = 0 :=
        rename_of_indexOf? hfits hu fun k hk => by cases hk
      rw [ResumeData.meaning, ResumeData.meaning, hnone _ hlength, hnone _ hfull.length,
        Value.rename]
      exact congrArg Value.ref hzero.symm
  · have hsame : data.meaning values rf.cache t = data.meaning values ru.cache t := by
      cases t with
      | virtual i => exact absurd ⟨i, rfl⟩ hvirtual
      | _ => rfl
    rw [hsame]
    cases hmeaning : data.meaning values ru.cache t with
    | ref a =>
      refine congrArg Value.ref (rename_of_indexOf? hfits hu fun k hk => ?_).symm
      exact ResumeData.lt_of_meaning hbelow (fun i hi => hvirtual ⟨i, hi⟩) hmeaning hk
    | _ => rfl

include hfits hbelow hu hfull in
theorem resolve_rename (hlength : ru.cache.length = data.virtuals.length)
    {entries : List (Place × Tagged)} (hentries : ∀ e ∈ entries, e.2.Ready ru.cache) :
    data.resolve values rf.cache entries = (data.resolve values ru.cache entries).map fun e =>
      (e.1, e.2.rename (ru.cache.rename rf.cache)) := by
  unfold ResumeData.resolve
  rw [List.map_map]
  refine List.map_congr_left fun e he => ?_
  exact congrArg (Prod.mk e.1) (meaning_rename hfits hbelow hu hfull hlength (hentries e he))

theorem lastAt_again (s : Slot) (stores again : List (Place × Value)) :
    lastAt s (stores ++ again ++ again) = lastAt s (stores ++ again) := by
  rw [lastAt_append, lastAt_append]
  cases lastAt s again <;> simp

theorem at?_storeAll_rename (o : HeapObject) (rename : UInt64 → UInt64) (s : Slot)
    (stores : List (Place × Value)) (ho : o.at? s = (o.at? s).map (·.rename rename)) :
    (o.storeAll (stores.map fun e => (e.1, e.2.rename rename))).at? s =
      ((o.storeAll stores).at? s).map (·.rename rename) := by
  rw [HeapObject.at?_storeAll, HeapObject.at?_storeAll, lastAt_map]
  split
  · cases lastAt s stores with
    | none => simpa using ho
    | some v => rfl
  · exact ho

theorem at?_fresh_rename (info : VirtualInfo) (rename : UInt64 → UInt64) (hnull : rename 0 = 0)
    (s : Slot) : info.fresh.at? s = (info.fresh.at? s).map (·.rename rename) := by
  cases info with
  | struct size fields => cases s <;> rfl
  | array descr items =>
    cases s with
    | field name => rfl
    | item i =>
      unfold VirtualInfo.fresh HeapObject.at?
      dsimp only
      rw [List.getElem?_replicate]
      split
      · cases descr.itemKind <;> simp [Kind.zero, Value.null, Value.rename, hnull]
      · rfl

include hfits hbelow hu hf hfull in
theorem at?_old (hlength : ru.cache.length = data.virtuals.length) {k : Nat}
    (hk : k < before.objects.length) (s : Slot) :
    rf.heap.at? (Arena.addressOf k) s =
        (ru.heap.at? (Arena.addressOf k) s).map (·.rename (ru.cache.rename rf.cache)) ∨
      ru.heap.at? (Arena.addressOf k) s = before.at? (Arena.addressOf k) s ∧
        rf.heap.at? (Arena.addressOf k) s = before.at? (Arena.addressOf k) s := by
  have hlt : k < before.objects.length + data.virtuals.length := by omega
  have hsome : before.objects[k]? = some before.objects[k] := List.getElem?_eq_getElem hk
  have hru := hu.old k hk
  have hrf := hf.old k hk
  dsimp only at hru hrf
  rw [hsome] at hru hrf
  rw [Arena.at?_addressOf hfits hlt, Arena.at?_addressOf hfits hlt, Arena.at?_addressOf hfits hlt,
    hru, hrf, hsome]
  dsimp only [Option.map, Option.bind]
  rw [ResumeData.writesTo_append, ResumeData.resolve_append,
    resolve_rename hfits hbelow hu hfull hlength (fun e he => by
      obtain ⟨w, hw, htarget, rfl⟩ := ResumeData.exists_of_mem_writesTo he
      exact hu.readyWritten w hw (by simp [htarget]))]
  rw [HeapObject.at?_storeAll, HeapObject.at?_storeAll, lastAt_append, lastAt_map]
  split
  · cases lastAt s (data.resolve values ru.cache (data.writesTo values done (.old k))) with
    | none => exact .inr ⟨rfl, rfl⟩
    | some v => exact .inl rfl
  · exact .inr ⟨rfl, rfl⟩

include hfits hbelow hu hf hfull in
theorem at?_new (hlength : ru.cache.length = data.virtuals.length) {i j j' : Nat}
    (hj : orderU[j]? = some i) (hj' : orderF[j']? = some i) (s : Slot) :
    rf.heap.at? (Arena.addressOf (before.objects.length + j')) s =
      (ru.heap.at? (Arena.addressOf (before.objects.length + j)) s).map
        (·.rename (ru.cache.rename rf.cache)) := by
  have hle := hu.allocated.length_le
  have hle' := hf.allocated.length_le
  have hlt := (List.getElem?_eq_some_iff.mp hj).1
  have hlt' := (List.getElem?_eq_some_iff.mp hj').1
  have hmem : i ∈ orderU := List.mem_of_getElem? hj
  obtain ⟨info, hinfo⟩ : ∃ info, data.virtuals[i]? = some info :=
    ⟨_, List.getElem?_eq_getElem (hu.inRange i hmem)⟩
  have hru := hu.new j i info hj hinfo
  have hrf := hf.new j' i info hj' hinfo
  dsimp only [storedTo, List.lookup, Option.getD] at hru hrf
  rw [Arena.at?_addressOf hfits (by omega), Arena.at?_addressOf hfits (by omega), hru, hrf]
  dsimp only [Option.bind]
  have hready : ∀ e ∈ info.contents ++ data.writesTo values done (.virtual i),
      e.2.Ready ru.cache := by
    intro e he
    rcases List.mem_append.mp he with he | he
    · exact hu.readyStored i hmem info hinfo e he
    · obtain ⟨w, hw, htarget, rfl⟩ := ResumeData.exists_of_mem_writesTo he
      exact hu.readyWritten w hw (by simp [htarget])
  have hnull : ru.cache.rename rf.cache 0 = 0 :=
    rename_of_indexOf? hfits hu fun k hk => by cases hk
  rw [← at?_storeAll_rename _ _ _ _ (at?_fresh_rename info _ hnull s),
    ← resolve_rename hfits hbelow hu hfull hlength hready, ResumeData.writesTo_append,
    ← List.append_assoc, ResumeData.resolve_append, ResumeData.resolve_append,
    HeapObject.at?_storeAll, HeapObject.at?_storeAll, lastAt_again]

include hfits hbelow hu hf hfull in
theorem renamedTo (hlength : ru.cache.length = data.virtuals.length) :
    Arena.RenamedTo before ru.heap rf.heap (ru.cache.rename rf.cache) := by
  have hlengthU := hu.length
  have hlengthF := hf.length
  dsimp only at hlengthU hlengthF
  have hindex {k : Nat} (hk : k < ru.heap.objects.length) (hle : before.objects.length ≤ k) :
      ∃ i j j' : Nat, k = before.objects.length + j ∧ orderU[j]? = some i ∧
        orderF[j']? = some i := by
    have hj : k - before.objects.length < orderU.length := by omega
    have hi := List.getElem?_eq_getElem hj
    have hrange := hu.inRange _ (List.mem_of_getElem? hi)
    obtain ⟨a, ha⟩ := Option.isSome_iff_exists.mp (hfull.ready _ (hfull.length ▸ hrange))
    obtain ⟨j', hj', -⟩ := (hf.cached _ a).mp ha
    exact ⟨_, _, j', by omega, hi, hj'⟩
  have hrename {i j j' : Nat} (hj : orderU[j]? = some i) (hj' : orderF[j']? = some i) :
      ru.cache.rename rf.cache (Arena.addressOf (before.objects.length + j)) =
        Arena.addressOf (before.objects.length + j') := by
    rw [rename_cached hfits hu hj, (hf.cached i _).mpr ⟨j', hj', rfl⟩]
    rfl
  have hsub : orderU ⊆ orderF := fun i hi => by
    have hready := hfull.ready i (hfull.length ▸ hu.inRange i hi)
    exact (hf.mem_order_iff i).mpr hready
  have hle := hu.nodup.length_le_of_subset hsub
  exact {
    old_le := by omega
    le := by omega
    fixes := fun a ha => VirtualCache.rename_eq_self fun i hi => by
      obtain ⟨j, hj, rfl⟩ := (hu.cached i a).mp hi
      have hlt := (List.getElem?_eq_some_iff.mp hj).1
      exact ha _ (by omega) (Nat.le_add_right ..) rfl
    fresh := fun k hk hle => by
      obtain ⟨i, j, j', rfl, hj, hj'⟩ := hindex hk hle
      have hlt' := (List.getElem?_eq_some_iff.mp hj').1
      exact ⟨_, by omega, Nat.le_add_right .., hrename hj hj'⟩
    injective := fun k hk k' hk' hle hle' hsame => by
      obtain ⟨i, j, l, rfl, hj, hl⟩ := hindex hk hle
      obtain ⟨i', j', l', rfl, hj', hl'⟩ := hindex hk' hle'
      rw [hrename hj hl, hrename hj' hl'] at hsame
      obtain rfl := hf.addressOf_injective hfits (List.getElem?_eq_some_iff.mp hl).1
        (List.getElem?_eq_some_iff.mp hl').1 hsame
      obtain rfl := Option.some.inj (hl.symm.trans hl')
      rw [hu.allocated.index_eq hj hj']
    old := fun k hk s => at?_old hfits hbelow hu hf hfull hlength hk s
    new := fun k hk hle s => by
      obtain ⟨i, j, j', rfl, hj, hj'⟩ := hindex hk hle
      rw [hrename hj hj']
      exact at?_new hfits hbelow hu hf hfull hlength hj hj' s }

end

end Reading

/-- A reader that takes up what forcing has built reads what a fresh one would have read. -/
theorem Reader.resume_force {data : ResumeData} {values : List Value} {heap : Arena}
    (hfits : Arena.Fits (heap.objects.length + data.virtuals.length))
    (hbelow : data.PointsBelow values heap.objects.length) :
    let fresh := (start data heap).resume data values
    let forced := force data values heap
    ∃ rename, (forced.resume data values).1 = fresh.1.map (·.rename rename) ∧
      Arena.RenamedTo heap fresh.2.heap (forced.resume data values).2.heap rename ∧
      (forced.resume data values).2.heap.objects.length = forced.heap.objects.length := by
  intro fresh forced
  obtain ⟨hsteps, hfull⟩ := steps_force data values heap
  have hsound := Reading.sound_start data heap
  obtain ⟨hu, hready, hvalues⟩ := Reading.steps_resume values hsound
  obtain ⟨hf, -, hvalues'⟩ := Reading.steps_resume values (hsteps.sound hsound)
  have hfull' := hfull.grows hf.grows
  obtain ⟨orderU, hlaidU⟩ := Reading.exists_laid hfits hbelow hu
  obtain ⟨orderF, hlaidF⟩ := Reading.exists_laid hfits hbelow (hsteps.trans hf)
  obtain ⟨order, hlaid⟩ := Reading.exists_laid hfits hbelow hsteps
  have hlength := hu.grows.length.trans hsound.length
  refine ⟨_, ?_, Reading.renamedTo hfits hbelow hlaidU hlaidF hfull' hlength, ?_⟩
  · refine hvalues'.trans ?_
    rw [hvalues, List.map_map]
    refine List.map_congr_left fun t ht => ?_
    exact Reading.meaning_rename hfits hbelow hlaidU hfull' hlength (hready t ht)
  · have hbefore := hlaid.length
    have hafter := hlaidF.length
    rw [hlaid.length_order_of_full hfull] at hbefore
    rw [hlaidF.length_order_of_full hfull'] at hafter
    exact hafter.trans hbefore.symm

end HotLoop
