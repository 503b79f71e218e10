import HotLoop.Proofs.Resume.Steps
import Mathlib.Data.List.Induction

/-!
# The objects of an arena while resume data is read

An object that has been there before holds what the pending writes to it have left. A virtual object
holds what was to be stored into it and then what the pending writes to it have left. The values
that they hold are the meanings of the entries, from which only the addresses of virtual objects
depend on the order in which the objects are built.
-/

namespace HotLoop

/-- Where a value is found in an object: a field by its name, an item by its index. -/
inductive Slot where
  | field (name : String)
  | item (index : Nat)
  deriving DecidableEq

def Place.slot : Place → Slot
  | .field f => .field f.name
  | .item i => .item i

/-- The value of the last store to a slot. -/
def lastAt (s : Slot) (stores : List (Place × Value)) : Option Value :=
  stores.foldl (fun last e => if e.1.slot = s then some e.2 else last) none

theorem lastAt_append (s : Slot) (stores stores' : List (Place × Value)) :
    lastAt s (stores ++ stores') = (lastAt s stores').or (lastAt s stores) := by
  induction stores' using List.reverseRecOn with
  | nil => simp [lastAt]
  | append_singleton stores' e ih =>
    unfold lastAt at *
    rw [← List.append_assoc, List.foldl_append, ih]
    by_cases he : e.1.slot = s <;> simp [he]

theorem lastAt_map (s : Slot) (stores : List (Place × Value)) (f : Value → Value) :
    lastAt s (stores.map fun e => (e.1, f e.2)) = (lastAt s stores).map f := by
  induction stores using List.reverseRecOn with
  | nil => rfl
  | append_singleton stores e ih =>
    rw [List.map_append, lastAt_append, lastAt_append, ih]
    by_cases he : e.1.slot = s <;> simp [lastAt, he]

namespace HeapObject

def at? (o : HeapObject) : Slot → Option Value
  | .field name => o.fields.get? name
  | .item i => o.items[i]?

/-- An array has only so many items; any field can be stored to. -/
def Has (o : HeapObject) : Slot → Prop
  | .field _ => True
  | .item i => i < o.items.length

instance (o : HeapObject) (s : Slot) : Decidable (o.Has s) := by
  cases s <;> unfold Has <;> infer_instance

def store (o : HeapObject) : Place → Value → HeapObject
  | .field f, v => { o with fields := o.fields.insert f.name v }
  | .item i, v => { o with items := o.items.set i v }

def storeAll (o : HeapObject) (stores : List (Place × Value)) : HeapObject :=
  stores.foldl (fun o e => o.store e.1 e.2) o

theorem storeAll_append (o : HeapObject) (stores stores' : List (Place × Value)) :
    o.storeAll (stores ++ stores') = (o.storeAll stores).storeAll stores' := List.foldl_append

theorem storeAll_concat (o : HeapObject) (stores : List (Place × Value)) (e : Place × Value) :
    o.storeAll (stores ++ [e]) = (o.storeAll stores).store e.1 e.2 := storeAll_append ..

@[simp] theorem has_store (o : HeapObject) (p : Place) (v : Value) (s : Slot) :
    (o.store p v).Has s ↔ o.Has s := by
  cases s <;> cases p <;> simp [Has, store]

theorem at?_store (o : HeapObject) (p : Place) (v : Value) (s : Slot) :
    (o.store p v).at? s = if p.slot = s ∧ o.Has s then some v else o.at? s := by
  cases p <;> cases s <;> simp [store, at?, Place.slot, Has, Table.get?_insert, List.getElem?_set]
  all_goals grind

theorem at?_storeAll (o : HeapObject) (stores : List (Place × Value)) (s : Slot) :
    (o.storeAll stores).at? s = if o.Has s then (lastAt s stores).or (o.at? s) else o.at? s := by
  have hall : ((o.storeAll stores).Has s ↔ o.Has s) ∧ (o.storeAll stores).at? s =
      if o.Has s then (lastAt s stores).or (o.at? s) else o.at? s := by
    induction stores using List.reverseRecOn with
    | nil => simp [storeAll, lastAt]
    | append_singleton stores e ih =>
      obtain ⟨hhas, hat⟩ := ih
      rw [storeAll_concat, lastAt_append, has_store, at?_store, hat]
      refine ⟨hhas, ?_⟩
      by_cases he : e.1.slot = s <;> by_cases hs : o.Has s <;> simp [lastAt, he, hs, hhas]
  exact hall.2

end HeapObject

namespace Arena

theorem store_eq (h : Arena) (a : UInt64) (p : Place) (v : Value) :
    VirtualHeap.store h a p v = h.modify a (·.store p v) := by
  cases p <;> rfl

theorem getElem?_modify (h : Arena) (a : UInt64) (f : HeapObject → HeapObject) (k : Nat) :
    (h.modify a f).objects[k]? =
      if indexOf? a = some k then h.objects[k]?.map f else h.objects[k]? := by
  unfold modify
  cases indexOf? a with
  | none => rfl
  | some index =>
    dsimp only
    rw [List.getElem?_modify]
    by_cases hk : index = k <;> simp [hk]

@[simp] theorem length_modify (h : Arena) (a : UInt64) (f : HeapObject → HeapObject) :
    (h.modify a f).objects.length = h.objects.length := by
  unfold modify
  cases indexOf? a <;> simp

/-- There is room for so many objects. -/
def Fits (count : Nat) : Prop := base + count * align ≤ UInt64.size

theorem indexOf?_addressOf {count k : Nat} (hfits : Fits count) (hk : k < count) :
    indexOf? (addressOf k) = some k := by
  unfold Fits base align at hfits
  have hsize : UInt64.size = 2 ^ 64 := rfl
  have hlt : base + k * align < 2 ^ 64 := by
    unfold base align
    omega
  have haddress : (addressOf k).toNat = base + k * align := by
    unfold addressOf
    rw [UInt64.toNat_ofNat', Nat.mod_eq_of_lt hlt]
  unfold indexOf?
  rw [haddress, if_pos (Nat.le_add_right ..)]
  unfold base align
  congr 1
  omega

/-- What the object that an address lies in holds at a slot. -/
def at? (h : Arena) (a : UInt64) (s : Slot) : Option Value := (h.object? a).bind (·.at? s)

theorem at?_addressOf {h : Arena} {count k : Nat} (hfits : Fits count) (hk : k < count) (s : Slot) :
    h.at? (addressOf k) s = (h.objects[k]?).bind (·.at? s) := by
  unfold at? object?
  rw [indexOf?_addressOf hfits hk]
  rfl

/-- The slot is there to be stored to. -/
def Has (h : Arena) (a : UInt64) (s : Slot) : Prop := ∃ o, h.object? a = some o ∧ o.Has s

/-- Stores made one after another. -/
def storeAll (h : Arena) (stores : List (UInt64 × Place × Value)) : Arena :=
  stores.foldl (fun h e => VirtualHeap.store h e.1 e.2.1 e.2.2) h

def storesTo (k : Nat) (stores : List (UInt64 × Place × Value)) : List (Place × Value) :=
  (stores.filter fun e => indexOf? e.1 = some k).map (·.2)

/-- The value of the last store to a slot of the object that an address lies in. -/
def lastAt (a : UInt64) (s : Slot) (stores : List (UInt64 × Place × Value)) : Option Value :=
  (indexOf? a).bind fun k => HotLoop.lastAt s (storesTo k stores)

@[simp] theorem length_storeAll (h : Arena) (stores : List (UInt64 × Place × Value)) :
    (h.storeAll stores).objects.length = h.objects.length := by
  induction stores generalizing h with
  | nil => rfl
  | cons e rest ih =>
    refine (ih _).trans ?_
    dsimp only
    rw [store_eq, length_modify]

theorem getElem?_storeAll (h : Arena) (stores : List (UInt64 × Place × Value)) (k : Nat) :
    (h.storeAll stores).objects[k]? = h.objects[k]?.map (·.storeAll (storesTo k stores)) := by
  induction stores generalizing h with
  | nil =>
    have hid (o : HeapObject) : o.storeAll (storesTo k []) = o := rfl
    simp [storeAll, hid]
  | cons e rest ih =>
    refine (ih _).trans ?_
    dsimp only
    rw [store_eq, getElem?_modify]
    by_cases hk : indexOf? e.1 = some k
    · have hstores : storesTo k (e :: rest) = e.2 :: storesTo k rest := by simp [storesTo, hk]
      rw [if_pos hk, hstores, Option.map_map]
      rfl
    · have hstores : storesTo k (e :: rest) = storesTo k rest := by simp [storesTo, hk]
      rw [if_neg hk, hstores]

/-- A slot is left as it is exactly if it holds already what is stored to it last. -/
theorem at?_storeAll_eq_iff (h : Arena) (stores : List (UInt64 × Place × Value)) (a : UInt64)
    (s : Slot) : (h.storeAll stores).at? a s = h.at? a s ↔
      (h.Has a s → ∀ v, lastAt a s stores = some v → h.at? a s = some v) := by
  unfold at? Has lastAt object?
  cases indexOf? a with
  | none => simp
  | some k =>
    dsimp only [Option.bind]
    rw [getElem?_storeAll]
    cases h.objects[k]? with
    | none => simp
    | some o =>
      dsimp only [Option.map]
      rw [HeapObject.at?_storeAll]
      by_cases hs : o.Has s
      · cases HotLoop.lastAt s (storesTo k stores) with
        | none => simp
        | some v => simp [hs, eq_comm]
      · simp [hs]

end Arena

/-- The object that is built for a virtual one, before anything is stored into it. -/
def VirtualInfo.fresh : VirtualInfo → HeapObject
  | .struct _ _ => {}
  | .array descr items => { items := List.replicate items.length descr.itemKind.zero }

theorem VirtualInfo.allocate_eq (info : VirtualInfo) (h : Arena) :
    info.allocate h = h.push info.fresh := by
  cases info <;> rfl

/-- The stores that the pending writes come to when all objects are there. -/
def ResumeData.delayed (data : ResumeData) (values : List Value) (cache : VirtualCache) :
    List (UInt64 × Place × Value) :=
  data.pending.filterMap fun w =>
    match data.meaning values cache w.target with
    | .ref a => some (a, w.place, data.meaning values cache w.value)
    | _ => none

theorem Reader.foldl_perform (data : ResumeData) (values : List Value) (r : Reader Arena) :
    data.pending.foldl (perform data values) r =
      { r with heap := r.heap.storeAll (data.delayed values r.cache) } := by
  unfold ResumeData.delayed
  induction data.pending generalizing r with
  | nil => rfl
  | cons w rest ih =>
    rw [List.foldl_cons, ih, cache_perform, List.filterMap_cons]
    unfold perform
    cases data.meaning values r.cache w.target <;> rfl

end HotLoop
