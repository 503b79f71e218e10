import HotLoop.Resume.Data
import HotLoop.Operation.Text
import HotLoop.Table

/-!
# Heaps for virtual objects

What is needed of a heap to build virtual objects, and two heaps: an arena that hands out objects
one after another and never frees any, and a wrapper around any heap that keeps a log of all calls.
-/

namespace HotLoop

class VirtualHeap (η : Type) where
  allocateStruct : η → SizeDescr → UInt64 × η
  allocateArray : η → ArrayDescr → Nat → UInt64 × η
  setField : η → UInt64 → FieldDescr → Value → η
  setItem : η → UInt64 → Nat → Value → η

structure HeapObject where
  fields : Table String Value := .empty
  items : List Value := []
  deriving Repr, Inhabited

/-- Objects at addresses sixteen apart, in the order of their allocation. -/
structure Arena where
  objects : List HeapObject := []
  deriving Repr, Inhabited

namespace Arena

def base : Nat := 0x10000000

def align : Nat := 16

def addressOf (index : Nat) : UInt64 := UInt64.ofNat (base + index * align)

/-- The number of the object that an address would lie in. -/
def indexOf? (address : UInt64) : Option Nat :=
  if base ≤ address.toNat then some ((address.toNat - base) / align) else none

def push (h : Arena) (object : HeapObject) : UInt64 × Arena :=
  (addressOf h.objects.length, ⟨h.objects ++ [object]⟩)

def object? (h : Arena) (address : UInt64) : Option HeapObject :=
  (indexOf? address).bind (h.objects[·]?)

def modify (h : Arena) (address : UInt64) (f : HeapObject → HeapObject) : Arena :=
  match indexOf? address with
  | some index => ⟨h.objects.modify index f⟩
  | none => h

def field? (h : Arena) (address : UInt64) (name : String) : Option Value :=
  (h.object? address).bind (·.fields.get? name)

def item? (h : Arena) (address : UInt64) (index : Nat) : Option Value :=
  (h.object? address).bind (·.items[index]?)

end Arena

instance : VirtualHeap Arena where
  allocateStruct h _ := h.push {}
  allocateArray h d n := h.push { items := List.replicate n d.itemKind.zero }
  setField h a f v := h.modify a fun o => { o with fields := o.fields.insert f.name v }
  setItem h a i v := h.modify a fun o => { o with items := o.items.set i v }

structure LoggedHeap (η : Type) where
  heap : η
  calls : List String := []
  deriving Inhabited

namespace LoggedHeap

def log {η : Type} (h : LoggedHeap η) (heap : η) (call : String) : LoggedHeap η :=
  ⟨heap, h.calls ++ [call]⟩

end LoggedHeap

instance {η : Type} [VirtualHeap η] : VirtualHeap (LoggedHeap η) where
  allocateStruct h d :=
    let (a, heap) := VirtualHeap.allocateStruct h.heap d
    (a, h.log heap s!"struct {d.typeId} {d.size} -> {hexText a}")
  allocateArray h d n :=
    let (a, heap) := VirtualHeap.allocateArray h.heap d n
    (a, h.log heap s!"array {d.itemKind.title} {n} -> {hexText a}")
  setField h a f v :=
    h.log (VirtualHeap.setField h.heap a f v) s!"field {hexText a} {f.name} = {v.text}"
  setItem h a i v :=
    h.log (VirtualHeap.setItem h.heap a i v) s!"item {hexText a} {i} = {v.text}"

end HotLoop
