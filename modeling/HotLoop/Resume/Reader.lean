import HotLoop.Resume.Heap

/-!
# Reading resume data

A reader decodes resume data against the values of one dead frame. A virtual object is allocated
when it is first met and put into the cache before its contents are decoded, so that objects that
refer to each other, or to themselves, are built once and the reading ends.
-/

namespace HotLoop

/-- The virtual objects that exist already, by their index. -/
abbrev VirtualCache := List (Option UInt64)

def VirtualCache.get? (cache : VirtualCache) (index : Nat) : Option UInt64 :=
  (cache[index]?).join

/-- A heap and the virtual objects built on it so far. -/
structure Reader (η : Type) where
  heap : η
  cache : VirtualCache := []
  deriving Inhabited

namespace Reader

variable {η : Type} [VirtualHeap η]

omit [VirtualHeap η] in
def start (data : ResumeData) (heap : η) : Reader η :=
  ⟨heap, List.replicate data.virtuals.length none⟩

omit [VirtualHeap η] in
/-- Takes over what an earlier reader has built; entries beyond the virtuals are dropped. -/
def withCache (r : Reader η) (cache : VirtualCache) : Reader η :=
  { r with cache := cache.take r.cache.length ++ r.cache.drop cache.length }

omit [VirtualHeap η] in
def remember (r : Reader η) (heap : η) (index : Nat) (object : UInt64) : Reader η :=
  ⟨heap, r.cache.set index (some object)⟩

def fillItems (decode : Tagged → Reader η → Value × Reader η) (object : UInt64) :
    List (Tagged × Nat) → Reader η → Reader η
  | [], r => r
  | (t, i) :: rest, r =>
    let (v, r) := decode t r
    fillItems decode object rest { r with heap := VirtualHeap.setItem r.heap object i v }

def fillFields (decode : Tagged → Reader η → Value × Reader η) (object : UInt64) :
    List (FieldDescr × Tagged) → Reader η → Reader η
  | [], r => r
  | (f, t) :: rest, r =>
    let (v, r) := decode t r
    fillFields decode object rest { r with heap := VirtualHeap.setField r.heap object f v }

/-- The value of an entry, where `build` answers for virtual objects. -/
def decodeWith (data : ResumeData) (values : List Value)
    (build : Nat → Reader η → UInt64 × Reader η) (t : Tagged) (r : Reader η) : Value × Reader η :=
  match t with
  | .box i => (values[i]?.getD .void, r)
  | .const i => (data.consts[i]?.getD .void, r)
  | .int n => (.int n.toInt64, r)
  | .virtual i => let (a, r) := build i r; (.ref a, r)
  | .null => (.null, r)

/--
The object of a virtual index, built if there is none, null if the index is out of range. `depth`
bounds how many objects are under construction at once; each of them fills a place of the cache.
-/
def materializeWithin (data : ResumeData) (values : List Value) :
    Nat → Nat → Reader η → UInt64 × Reader η
  | depth, index, r =>
    match r.cache.get? index with
    | some object => (object, r)
    | none =>
      match depth, data.virtuals[index]? with
      | depth + 1, some (.struct size fields) =>
        let (object, heap) := VirtualHeap.allocateStruct r.heap size
        let decode := decodeWith data values (materializeWithin data values depth)
        (object, fillFields decode object fields (r.remember heap index object))
      | depth + 1, some (.array array items) =>
        let (object, heap) := VirtualHeap.allocateArray r.heap array items.length
        let decode := decodeWith data values (materializeWithin data values depth)
        (object, fillItems decode object items.zipIdx (r.remember heap index object))
      | _, _ => (0, r)

/-- The object of a virtual index. No more objects than there are virtuals are built at once. -/
def materialize (data : ResumeData) (values : List Value) (index : Nat) (r : Reader η) :
    UInt64 × Reader η :=
  materializeWithin data values data.virtuals.length index r

def decode (data : ResumeData) (values : List Value) (t : Tagged) (r : Reader η) :
    Value × Reader η :=
  decodeWith data values (materialize data values) t r

def materializeAll (data : ResumeData) (values : List Value) (r : Reader η) : Reader η :=
  (List.range data.virtuals.length).foldl (fun r i => (materialize data values i r).2) r

/-- Performs one pending write, unless its target is no reference. -/
def applyPendingWrite (data : ResumeData) (values : List Value) (r : Reader η) (w : PendingWrite) :
    Reader η :=
  match decode data values w.target r with
  | (.ref target, r) =>
    let (v, r) := decode data values w.value r
    match w.index? with
    | some i => { r with heap := VirtualHeap.setItem r.heap target i v }
    | none => { r with heap := VirtualHeap.setField r.heap target w.field v }
  | (_, r) => r

def applyPending (data : ResumeData) (values : List Value) (r : Reader η) : Reader η :=
  data.pending.foldl (applyPendingWrite data values) r

/-- The values of a list of entries, from first to last. -/
def decodeList (data : ResumeData) (values : List Value) :
    List Tagged → Reader η → List Value × Reader η
  | [], r => ([], r)
  | t :: ts, r =>
    let (v, r) := decode data values t r
    let (vs, r) := decodeList data values ts r
    (v :: vs, r)

def readFrame (data : ResumeData) (values : List Value) (r : Reader η) : List Value × Reader η :=
  decodeList data values data.numbering r

/-- Builds every virtual object and performs the pending writes, on a fresh cache. -/
def force (data : ResumeData) (values : List Value) (heap : η) : Reader η :=
  applyPending data values (materializeAll data values (start data heap))

end Reader

end HotLoop
