import HotLoop.Resume.Reader
import Mathlib.Data.List.Nodup
import Mathlib.Logic.Relation

/-!
# Reading resume data, step by step

While a virtual object is built, others are built that it refers to, and so on. All that ever
happens is: an object is allocated, the next of its entries is stored, it is done, or a pending
write is performed. What an entry means depends on the cache alone as soon as its object is there.
-/

namespace HotLoop

/-- A place in an object. -/
inductive Place where
  | field (field : FieldDescr)
  | item (index : Nat)
  deriving DecidableEq

def PendingWrite.place (w : PendingWrite) : Place :=
  match w.index? with
  | some i => .item i
  | none => .field w.field

def VirtualInfo.contents : VirtualInfo → List (Place × Tagged)
  | .struct _ fields => fields.map fun e => (.field e.1, e.2)
  | .array _ items => items.zipIdx.map fun e => (.item e.2, e.1)

section Heaps

variable {η : Type} [VirtualHeap η]

def VirtualHeap.store (h : η) (object : UInt64) : Place → Value → η
  | .field f, v => setField h object f v
  | .item i, v => setItem h object i v

def VirtualInfo.allocate (info : VirtualInfo) (h : η) : UInt64 × η :=
  match info with
  | .struct size _ => VirtualHeap.allocateStruct h size
  | .array descr items => VirtualHeap.allocateArray h descr items.length

end Heaps

structure VirtualCache.Grows (cache cache' : VirtualCache) : Prop where
  length : cache'.length = cache.length
  get? : ∀ i a, cache.get? i = some a → cache'.get? i = some a

namespace VirtualCache

theorem Grows.refl (cache : VirtualCache) : cache.Grows cache := ⟨rfl, fun _ _ h => h⟩

theorem Grows.trans {c c' c'' : VirtualCache} (h : c.Grows c') (h' : c'.Grows c'') :
    c.Grows c'' :=
  ⟨h'.length.trans h.length, fun i a hi => h'.get? i a (h.get? i a hi)⟩

theorem get?_set (cache : VirtualCache) (i j : Nat) (a : UInt64) :
    VirtualCache.get? (cache.set i (some a)) j =
      if j = i ∧ i < cache.length then some a else cache.get? j := by
  unfold get?
  rw [List.getElem?_set]
  grind

theorem get?_set_self {cache : VirtualCache} {i : Nat} (a : UInt64) (hi : i < cache.length) :
    VirtualCache.get? (cache.set i (some a)) i = some a := by
  rw [get?_set, if_pos ⟨rfl, hi⟩]

theorem lt_length_of_get? {cache : VirtualCache} {i : Nat} {a : UInt64}
    (h : cache.get? i = some a) : i < cache.length := by
  unfold get? at h
  by_contra hle
  rw [List.getElem?_eq_none (by omega)] at h
  cases h

theorem grows_set {cache : VirtualCache} {i : Nat} (h : cache.get? i = none) (a : UInt64) :
    Grows cache (cache.set i (some a)) where
  length := List.length_set
  get? j b hj := by
    rw [get?_set]
    split
    · rename_i hij
      rw [hij.1, h] at hj
      cases hj
    · exact hj

end VirtualCache

/-- What an entry means once its object is there; an object that is not there is null. -/
def ResumeData.meaning (data : ResumeData) (values : List Value) (cache : VirtualCache) :
    Tagged → Value
  | .box i => values[i]?.getD .void
  | .const i => data.consts[i]?.getD .void
  | .int n => .int n.toInt64
  | .virtual i => .ref ((cache.get? i).getD 0)
  | .null => .null

/-- The object that an entry names is there, unless its number is out of range. -/
def Tagged.Ready (cache : VirtualCache) : Tagged → Prop
  | .virtual i => i < cache.length → (cache.get? i).isSome
  | _ => True

namespace Tagged.Ready

variable {cache cache' : VirtualCache} {t : Tagged}

theorem grows (h : t.Ready cache) (hgrows : cache.Grows cache') : t.Ready cache' := by
  cases t with
  | virtual i =>
    intro hi
    obtain ⟨a, ha⟩ := Option.isSome_iff_exists.mp (h (hgrows.length ▸ hi))
    rw [hgrows.get? i a ha]
    rfl
  | _ => trivial

theorem meaning_eq (h : t.Ready cache) (hgrows : cache.Grows cache') (data : ResumeData)
    (values : List Value) : data.meaning values cache' t = data.meaning values cache t := by
  cases t with
  | virtual i =>
    by_cases hi : i < cache.length
    · obtain ⟨a, ha⟩ := Option.isSome_iff_exists.mp (h hi)
      rw [ResumeData.meaning, ResumeData.meaning, hgrows.get? i a ha, ha]
    · have hnone : cache.get? i = none := by
        rw [VirtualCache.get?, List.getElem?_eq_none (by omega)]
        rfl
      have hnone' : cache'.get? i = none := by
        rw [VirtualCache.get?, List.getElem?_eq_none (by rw [hgrows.length]; omega)]
        rfl
      rw [ResumeData.meaning, ResumeData.meaning, hnone, hnone']
  | _ => rfl

end Tagged.Ready

namespace Reader

variable {η : Type} [VirtualHeap η]

def fill (decode : Tagged → Reader η → Value × Reader η) (object : UInt64) :
    List (Place × Tagged) → Reader η → Reader η
  | [], r => r
  | (p, t) :: rest, r =>
    let (v, r) := decode t r
    fill decode object rest { r with heap := VirtualHeap.store r.heap object p v }

theorem fillFields_eq (decode : Tagged → Reader η → Value × Reader η) (object : UInt64)
    (fields : List (FieldDescr × Tagged)) (r : Reader η) :
    fillFields decode object fields r =
      fill decode object (fields.map fun e => (.field e.1, e.2)) r := by
  induction fields generalizing r with
  | nil => rfl
  | cons e rest ih => exact ih _

theorem fillItems_eq (decode : Tagged → Reader η → Value × Reader η) (object : UInt64)
    (items : List (Tagged × Nat)) (r : Reader η) :
    fillItems decode object items r =
      fill decode object (items.map fun e => (.item e.2, e.1)) r := by
  induction items generalizing r with
  | nil => rfl
  | cons e rest ih => exact ih _

/-- The object of a virtual index is taken from the cache or built like any other. -/
theorem materializeWithin_eq (data : ResumeData) (values : List Value) (depth index : Nat)
    (r : Reader η) : materializeWithin data values depth index r =
      match r.cache.get? index with
      | some object => (object, r)
      | none =>
        match depth, data.virtuals[index]? with
        | depth + 1, some info =>
          let (object, heap) := info.allocate r.heap
          (object, fill (decodeWith data values (materializeWithin data values depth)) object
            info.contents (r.remember heap index object))
        | _, _ => (0, r) := by
  rw [materializeWithin.eq_def]
  dsimp only
  cases r.cache.get? index with
  | some object => rfl
  | none =>
    rcases depth with _ | depth
    · rfl
    · cases data.virtuals[index]? with
      | none => rfl
      | some info =>
        cases info with
        | struct size fields =>
          dsimp only
          rw [fillFields_eq]
          rfl
        | array descr items =>
          dsimp only
          rw [fillItems_eq]
          rfl

/-- Reads a frame and performs the pending writes. -/
def resume (data : ResumeData) (values : List Value) (r : Reader η) : List Value × Reader η :=
  let read := r.readFrame data values
  (read.1, read.2.applyPending data values)

/-- Performs a pending write without looking further than the cache. -/
def perform (data : ResumeData) (values : List Value) (r : Reader η) (w : PendingWrite) :
    Reader η :=
  match data.meaning values r.cache w.target with
  | .ref target => { r with
      heap := VirtualHeap.store r.heap target w.place (data.meaning values r.cache w.value) }
  | _ => r

end Reader

structure Reading (η : Type) where
  reader : Reader η
  /-- The virtual objects under construction, the latest first, and what has been stored to them. -/
  partials : List (Nat × List (Place × Tagged)) := []
  done : List PendingWrite := []

namespace Reading

variable {η : Type} [VirtualHeap η]

section Steps

variable (data : ResumeData) (values : List Value)

inductive Step : Reading η → Reading η → Prop where
  | start {r : Reader η} {partials done} (i : Nat) (info : VirtualInfo)
    (hinfo : data.virtuals[i]? = some info) (hnew : r.cache.get? i = none) :
    Step ⟨r, partials, done⟩
      ⟨r.remember (info.allocate r.heap).2 i (info.allocate r.heap).1, (i, []) :: partials, done⟩
  | store {r : Reader η} {partials done} {i : Nat} (info : VirtualInfo)
    {stored rest : List (Place × Tagged)} {p : Place} {t : Tagged} {object : UInt64}
    (hinfo : data.virtuals[i]? = some info) (hcontents : info.contents = stored ++ (p, t) :: rest)
    (hobject : r.cache.get? i = some object) (hready : t.Ready r.cache) :
    Step ⟨r, (i, stored) :: partials, done⟩
      ⟨{ r with heap := VirtualHeap.store r.heap object p (data.meaning values r.cache t) },
        (i, stored ++ [(p, t)]) :: partials, done⟩
  | finish {r : Reader η} {partials done} {i : Nat} (info : VirtualInfo)
    (hinfo : data.virtuals[i]? = some info) :
    Step ⟨r, (i, info.contents) :: partials, done⟩ ⟨r, partials, done⟩
  | perform {r : Reader η} {done} (w : PendingWrite) (htarget : w.target.Ready r.cache)
    (hvalue : ∀ a, data.meaning values r.cache w.target = .ref a → w.value.Ready r.cache) :
    Step ⟨r, [], done⟩ ⟨r.perform data values w, [], done ++ [w]⟩

def Steps : Reading η → Reading η → Prop := Relation.ReflTransGen (Step data values)

end Steps

/-- The objects under construction are different ones, and they are there already. -/
structure Sound (data : ResumeData) (s : Reading η) : Prop where
  length : s.reader.cache.length = data.virtuals.length
  nodup : (s.partials.map (·.1)).Nodup
  there : ∀ i ∈ s.partials.map (·.1), (s.reader.cache.get? i).isSome

variable {data : ResumeData} {values : List Value} {s s' : Reading η}

theorem Step.grows (h : Step data values s s') : s.reader.cache.Grows s'.reader.cache := by
  cases h with
  | start i info _ hnew => exact VirtualCache.grows_set hnew _
  | store => exact .refl _
  | finish => exact .refl _
  | perform w =>
    unfold Reader.perform
    split <;> exact .refl _

theorem Steps.grows (h : Steps data values s s') : s.reader.cache.Grows s'.reader.cache := by
  induction h with
  | refl => exact .refl _
  | tail _ hstep ih => exact ih.trans hstep.grows

theorem Step.sound (h : Step data values s s') (hs : s.Sound data) : s'.Sound data := by
  have hlength := h.grows.length.trans hs.length
  have hthere (i : Nat) (hi : (s.reader.cache.get? i).isSome) :
      (s'.reader.cache.get? i).isSome := by
    obtain ⟨a, ha⟩ := Option.isSome_iff_exists.mp hi
    rw [h.grows.get? i a ha]
    rfl
  cases h with
  | @start r _ _ i info hinfo hnew =>
    refine ⟨hlength, List.nodup_cons.mpr ⟨fun hmem => ?_, hs.nodup⟩, fun j hj => ?_⟩
    · have := hs.there i hmem
      rw [hnew] at this
      cases this
    · rcases List.mem_cons.mp hj with rfl | hmem
      · have hlt : j < r.cache.length := hs.length ▸ (List.getElem?_eq_some_iff.mp hinfo).1
        dsimp only [Reader.remember]
        rw [VirtualCache.get?_set_self _ hlt]
        rfl
      · exact hthere j (hs.there j hmem)
  | store => exact ⟨hlength, hs.nodup, hs.there⟩
  | finish =>
    exact ⟨hlength, (List.nodup_cons.mp hs.nodup).2, fun j hj =>
      hs.there j (List.mem_cons_of_mem _ hj)⟩
  | perform => exact ⟨hlength, List.nodup_nil, fun j hj => absurd hj (List.not_mem_nil)⟩

theorem Steps.sound (h : Steps data values s s') (hs : s.Sound data) : s'.Sound data := by
  induction h with
  | refl => exact hs
  | tail _ hstep ih => exact hstep.sound ih

omit [VirtualHeap η] in
/-- As many objects as there are virtuals cannot all be under construction while one is missing. -/
theorem Sound.partials_lt (hs : s.Sound data) {i : Nat} (hi : i < data.virtuals.length)
    (hnone : s.reader.cache.get? i = none) : s.partials.length < data.virtuals.length := by
  have hnot : i ∉ s.partials.map (·.1) := fun hmem => by
    have := hs.there i hmem
    rw [hnone] at this
    cases this
  have hsub : i :: s.partials.map (·.1) ⊆ List.range data.virtuals.length := by
    intro j hj
    rcases List.mem_cons.mp hj with rfl | hmem
    · exact List.mem_range.mpr hi
    · obtain ⟨a, ha⟩ := Option.isSome_iff_exists.mp (hs.there j hmem)
      exact List.mem_range.mpr (hs.length ▸ VirtualCache.lt_length_of_get? ha)
  have hnodup : (i :: s.partials.map (·.1)).Nodup := List.nodup_cons.mpr ⟨hnot, hs.nodup⟩
  have hle := hnodup.length_le_of_subset hsub
  simp only [List.length_cons, List.length_map, List.length_range] at hle
  omega

structure Decodes (data : ResumeData) (values : List Value) (t : Tagged) (s : Reading η)
    (result : Value × Reader η) : Prop where
  steps : Steps data values s { s with reader := result.2 }
  ready : t.Ready result.2.cache
  meaning : result.1 = data.meaning values result.2.cache t

theorem decodes_decodeWith {build : Nat → Reader η → UInt64 × Reader η}
    (hbuild : ∀ i, Steps data values s { s with reader := (build i s.reader).2 } ∧
      (Tagged.virtual i).Ready (build i s.reader).2.cache ∧
      (build i s.reader).1 = ((build i s.reader).2.cache.get? i).getD 0) (t : Tagged) :
    Decodes data values t s (Reader.decodeWith data values build t s.reader) := by
  cases t with
  | virtual i =>
    obtain ⟨hsteps, hready, haddress⟩ := hbuild i
    exact ⟨hsteps, hready, congrArg Value.ref haddress⟩
  | _ => exact ⟨.refl, trivial, rfl⟩

theorem steps_fill {decode : Tagged → Reader η → Value × Reader η} {i : Nat} {info : VirtualInfo}
    (hinfo : data.virtuals[i]? = some info) {partials : List (Nat × List (Place × Tagged))}
    {done : List PendingWrite} {object : UInt64}
    (hdecode : ∀ t r stored, Sound data ⟨r, (i, stored) :: partials, done⟩ →
      Decodes data values t ⟨r, (i, stored) :: partials, done⟩ (decode t r))
    (rest stored : List (Place × Tagged)) (hcontents : info.contents = stored ++ rest)
    (r : Reader η) (hs : Sound data ⟨r, (i, stored) :: partials, done⟩)
    (hobject : r.cache.get? i = some object) :
    Steps data values ⟨r, (i, stored) :: partials, done⟩
      ⟨Reader.fill decode object rest r, partials, done⟩ := by
  induction rest generalizing stored r with
  | nil =>
    rw [List.append_nil] at hcontents
    rw [← hcontents]
    exact .single (.finish info hinfo)
  | cons e rest ih =>
    obtain ⟨p, t⟩ := e
    obtain ⟨hsteps, hready, hmeaning⟩ := hdecode t r stored hs
    have hobject' := hsteps.grows.get? i object hobject
    have hstore : Step data values ⟨(decode t r).2, (i, stored) :: partials, done⟩ _ :=
      .store info hinfo hcontents hobject' hready
    rw [← hmeaning] at hstore
    have hall : Steps data values _ _ := hsteps.tail hstore
    refine hall.trans (ih (stored ++ [(p, t)]) ?_ _ (hall.sound hs) hobject')
    rw [hcontents, List.append_assoc]
    rfl

theorem steps_materializeWithin (values : List Value) (depth i : Nat) (s : Reading η)
    (hs : s.Sound data)
    (hdepth : data.virtuals.length ≤ depth + s.partials.length) :
    let result := Reader.materializeWithin data values depth i s.reader
    Steps data values s { s with reader := result.2 } ∧ (Tagged.virtual i).Ready result.2.cache ∧
      result.1 = (result.2.cache.get? i).getD 0 := by
  -- by induction on the depth, which suffices for the objects that are not under construction
  induction depth generalizing i s with
  | zero =>
    rw [Reader.materializeWithin_eq]
    cases hcache : s.reader.cache.get? i with
    | some object =>
      refine ⟨.refl, fun _ => ?_, ?_⟩ <;> dsimp only <;> rw [hcache] <;> rfl
    | none =>
      refine ⟨.refl, fun hi => ?_, ?_⟩ <;> dsimp only
      · have := hs.partials_lt (hs.length ▸ hi) hcache
        omega
      · rw [hcache]
        rfl
  | succ depth ih =>
    rw [Reader.materializeWithin_eq]
    cases hcache : s.reader.cache.get? i with
    | some object =>
      refine ⟨.refl, fun _ => ?_, ?_⟩ <;> dsimp only <;> rw [hcache] <;> rfl
    | none =>
      cases hinfo : data.virtuals[i]? with
      | none =>
        refine ⟨.refl, fun hi => ?_, ?_⟩ <;> dsimp only at *
        · rw [hs.length] at hi
          rw [List.getElem?_eq_getElem hi] at hinfo
          cases hinfo
        · rw [hcache]
          rfl
      | some info =>
        dsimp only
        have hstart : Step data values s _ := .start i info hinfo hcache
        have hsound := hstart.sound hs
        have hlt : i < s.reader.cache.length :=
          hs.length ▸ (List.getElem?_eq_some_iff.mp hinfo).1
        have hobject := VirtualCache.get?_set_self (info.allocate s.reader.heap).1 hlt
        have hdecode (t : Tagged) (r : Reader η) (stored : List (Place × Tagged))
            (hsound : Sound data ⟨r, (i, stored) :: s.partials, s.done⟩) :
            Decodes data values t ⟨r, (i, stored) :: s.partials, s.done⟩
              (Reader.decodeWith data values (Reader.materializeWithin data values depth) t r) := by
          have hroom : data.virtuals.length ≤ depth + ((i, stored) :: s.partials).length := by
            rw [List.length_cons]
            omega
          exact decodes_decodeWith (fun j => ih j _ hsound hroom) t
        have hfill := steps_fill hinfo hdecode info.contents [] rfl _ hsound hobject
        have hcached := hfill.grows.get? i _ hobject
        refine ⟨.head hstart hfill, fun _ => ?_, ?_⟩
        · rw [hcached]
          rfl
        · rw [hcached]
          rfl

/-- While no object is under construction, any entry can be decoded. -/
theorem decodes_decode (values : List Value) (t : Tagged) {r : Reader η} {done : List PendingWrite}
    (hs : Sound data ⟨r, [], done⟩) :
    Decodes data values t ⟨r, [], done⟩ (Reader.decode data values t r) :=
  decodes_decodeWith (fun i => steps_materializeWithin values _ i _ hs (Nat.le_refl _)) t

theorem steps_decodeList (values : List Value) (entries : List Tagged) {r : Reader η}
    {done : List PendingWrite} (hs : Sound data ⟨r, [], done⟩) :
    let result := Reader.decodeList data values entries r
    Steps data values ⟨r, [], done⟩ ⟨result.2, [], done⟩ ∧
      (∀ t ∈ entries, t.Ready result.2.cache) ∧
      result.1 = entries.map (data.meaning values result.2.cache) := by
  induction entries generalizing r with
  | nil => exact ⟨.refl, fun _ h => absurd h (List.not_mem_nil), rfl⟩
  | cons t rest ih =>
    obtain ⟨hsteps, hready, hmeaning⟩ := decodes_decode values t hs
    obtain ⟨hrest, hreadys, hmeanings⟩ := ih (hsteps.sound hs)
    have hgrows := hrest.grows
    refine ⟨hsteps.trans hrest, fun t' ht' => ?_, ?_⟩
    · rcases List.mem_cons.mp ht' with rfl | hmem
      · exact hready.grows hgrows
      · exact hreadys t' hmem
    · refine List.cons_eq_cons.mpr ⟨hmeaning.trans ?_, hmeanings⟩
      exact (hready.meaning_eq hgrows data values).symm

theorem steps_applyPendingWrite (values : List Value) (w : PendingWrite) {r : Reader η}
    {done : List PendingWrite} (hs : Sound data ⟨r, [], done⟩) :
    Steps data values ⟨r, [], done⟩
      ⟨Reader.applyPendingWrite data values r w, [], done ++ [w]⟩ := by
  obtain ⟨htarget, htargetReady, htargetMeaning⟩ := decodes_decode values w.target hs
  unfold Reader.applyPendingWrite
  generalize Reader.decode data values w.target r = target at *
  obtain ⟨v, r₁⟩ := target
  cases v with
  | ref a =>
    obtain ⟨hvalue, hvalueReady, hvalueMeaning⟩ :=
      decodes_decode values w.value (htarget.sound hs)
    dsimp only at *
    generalize Reader.decode data values w.value r₁ = value at *
    obtain ⟨v, r₂⟩ := value
    have hgrows := hvalue.grows
    have hmeaning : data.meaning values r₂.cache w.target = .ref a :=
      (htargetReady.meaning_eq hgrows data values).trans htargetMeaning.symm
    have hperform : Step data values ⟨r₂, [], done⟩ ⟨r₂.perform data values w, [], done ++ [w]⟩ :=
      .perform w (htargetReady.grows hgrows) fun _ _ => hvalueReady
    have hall := (htarget.trans hvalue).tail hperform
    refine (congrArg (fun r => Steps data values _ ⟨r, _, _⟩) ?_).mp hall
    unfold Reader.perform PendingWrite.place
    rw [hmeaning, ← hvalueMeaning]
    cases w.index? <;> rfl
  | _ =>
    dsimp only at *
    have hperform :
        Step data values ⟨r₁, [], done⟩ ⟨r₁.perform data values w, [], done ++ [w]⟩ := by
      refine .perform w htargetReady fun a ha => ?_
      rw [← htargetMeaning] at ha
      cases ha
    have hall := htarget.tail hperform
    refine (congrArg (fun r => Steps data values _ ⟨r, _, _⟩) ?_).mp hall
    unfold Reader.perform
    rw [← htargetMeaning]

theorem steps_applyPending (values : List Value) {r : Reader η} {done : List PendingWrite}
    (hs : Sound data ⟨r, [], done⟩) :
    Steps data values ⟨r, [], done⟩
      ⟨Reader.applyPending data values r, [], done ++ data.pending⟩ := by
  unfold Reader.applyPending
  generalize data.pending = pending
  induction pending generalizing r done with
  | nil =>
    rw [List.append_nil]
    exact .refl
  | cons w rest ih =>
    have hw := steps_applyPendingWrite values w hs
    rw [List.append_cons]
    exact hw.trans (ih (hw.sound hs))

theorem steps_materializeAll (values : List Value) {r : Reader η} {done : List PendingWrite}
    (hs : Sound data ⟨r, [], done⟩) :
    Steps data values ⟨r, [], done⟩ ⟨Reader.materializeAll data values r, [], done⟩ ∧
      ∀ i, (Tagged.virtual i).Ready (Reader.materializeAll data values r).cache := by
  have hlist (indices : List Nat) : ∀ r : Reader η, Sound data ⟨r, [], done⟩ →
      let r' := indices.foldl (fun r i => (Reader.materialize data values i r).2) r
      Steps data values ⟨r, [], done⟩ ⟨r', [], done⟩ ∧
        ∀ i ∈ indices, (Tagged.virtual i).Ready r'.cache := by
    induction indices with
    | nil => exact fun r _ => ⟨.refl, fun _ h => absurd h (List.not_mem_nil)⟩
    | cons i rest ih =>
      intro r hs
      obtain ⟨hfirst, hready, -⟩ :=
        steps_materializeWithin values data.virtuals.length i _ hs (Nat.le_add_right ..)
      obtain ⟨hrest, hreadys⟩ := ih _ (hfirst.sound hs)
      refine ⟨hfirst.trans hrest, fun j hj => ?_⟩
      rcases List.mem_cons.mp hj with rfl | hmem
      · exact hready.grows hrest.grows
      · exact hreadys j hmem
  obtain ⟨hsteps, hready⟩ := hlist (List.range data.virtuals.length) r hs
  refine ⟨hsteps, fun i hi => ?_⟩
  have hlt : i < data.virtuals.length := by
    rw [← (hsteps.sound hs).length]
    exact hi
  exact hready i (List.mem_range.mpr hlt) hi

theorem steps_resume (values : List Value) {r : Reader η} {done : List PendingWrite}
    (hs : Sound data ⟨r, [], done⟩) :
    let result := r.resume data values
    Steps data values ⟨r, [], done⟩ ⟨result.2, [], done ++ data.pending⟩ ∧
      (∀ t ∈ data.numbering, t.Ready result.2.cache) ∧
      result.1 = data.numbering.map (data.meaning values result.2.cache) := by
  obtain ⟨hread, hready, hvalues⟩ := steps_decodeList values data.numbering hs
  have hwritten := steps_applyPending values (hread.sound hs)
  refine ⟨hread.trans hwritten, fun t ht => (hready t ht).grows hwritten.grows, ?_⟩
  refine hvalues.trans (List.map_congr_left fun t ht => ?_)
  exact ((hready t ht).meaning_eq hwritten.grows data values).symm

omit [VirtualHeap η] in
theorem sound_start (data : ResumeData) (heap : η) : Sound data ⟨Reader.start data heap, [], []⟩ :=
  ⟨List.length_replicate, List.nodup_nil, fun _ h => absurd h (List.not_mem_nil)⟩

end Reading

/-- Every virtual object is there. -/
structure VirtualCache.Full (data : ResumeData) (cache : VirtualCache) : Prop where
  length : cache.length = data.virtuals.length
  ready : ∀ i, (Tagged.virtual i).Ready cache

theorem VirtualCache.Full.grows {data : ResumeData} {cache cache' : VirtualCache}
    (h : cache.Full data) (hgrows : cache.Grows cache') : cache'.Full data :=
  ⟨hgrows.length.trans h.length, fun i => (h.ready i).grows hgrows⟩

namespace Reader

variable {η : Type} [VirtualHeap η] {data : ResumeData} {values : List Value}

/-- Forcing builds all objects and performs the pending writes. -/
theorem steps_force (data : ResumeData) (values : List Value) (heap : η) :
    Reading.Steps data values ⟨start data heap, [], []⟩
        ⟨force data values heap, [], data.pending⟩ ∧
      VirtualCache.Full data (force data values heap).cache := by
  have hs := Reading.sound_start data heap
  obtain ⟨hbuilt, hready⟩ := Reading.steps_materializeAll values hs
  have hwritten := Reading.steps_applyPending values (hbuilt.sound hs)
  have hall : Reading.Steps data values _ _ := hbuilt.trans hwritten
  exact ⟨hall, (hall.sound hs).length, fun i => (hready i).grows hwritten.grows⟩

omit [VirtualHeap η] in
theorem start_withCache (heap : η) {cache : VirtualCache}
    (h : cache.length = data.virtuals.length) :
    (start data heap).withCache cache = ⟨heap, cache⟩ := by
  unfold withCache start
  have hdrop : (List.replicate data.virtuals.length (none : Option UInt64)).drop cache.length =
      [] := by
    exact List.drop_eq_nil_of_le (Nat.le_of_eq (List.length_replicate.trans h.symm))
  rw [List.length_replicate, List.take_of_length_le (Nat.le_of_eq h), hdrop, List.append_nil]

omit [VirtualHeap η] in
theorem withCache_nil (r : Reader η) : r.withCache [] = r := by
  simp [withCache]

theorem materialize_of_full {r : Reader η} (h : r.cache.Full data) (i : Nat) :
    materialize data values i r = ((r.cache.get? i).getD 0, r) := by
  unfold materialize
  rw [materializeWithin_eq]
  cases hcache : r.cache.get? i with
  | some object => rfl
  | none =>
    have hinfo : data.virtuals[i]? = none := by
      by_contra hsome
      obtain ⟨info, hinfo⟩ := Option.ne_none_iff_exists'.mp hsome
      have hready := h.ready i (h.length ▸ (List.getElem?_eq_some_iff.mp hinfo).1)
      rw [hcache] at hready
      cases hready
    rw [hinfo]
    cases data.virtuals.length <;> rfl

theorem decode_of_full {r : Reader η} (h : r.cache.Full data) (t : Tagged) :
    decode data values t r = (data.meaning values r.cache t, r) := by
  cases t with
  | virtual i =>
    unfold decode decodeWith
    dsimp only
    rw [materialize_of_full h]
    rfl
  | _ => rfl

theorem readFrame_of_full {r : Reader η} (h : r.cache.Full data) :
    readFrame data values r = (data.numbering.map (data.meaning values r.cache), r) := by
  unfold readFrame
  induction data.numbering with
  | nil => rfl
  | cons t rest ih =>
    rw [decodeList, decode_of_full h]
    dsimp only
    rw [ih]
    rfl

@[simp] theorem cache_perform (r : Reader η) (w : PendingWrite) :
    (perform data values r w).cache = r.cache := by
  unfold perform
  split <;> rfl

theorem applyPendingWrite_of_full {r : Reader η} (h : r.cache.Full data) (w : PendingWrite) :
    applyPendingWrite data values r w = perform data values r w := by
  unfold applyPendingWrite perform
  rw [decode_of_full h]
  cases data.meaning values r.cache w.target with
  | ref a =>
    dsimp only
    rw [decode_of_full h]
    unfold PendingWrite.place
    cases w.index? <;> rfl
  | _ => rfl

theorem applyPending_of_full {r : Reader η} (h : r.cache.Full data) :
    applyPending data values r = data.pending.foldl (perform data values) r := by
  unfold applyPending
  induction data.pending generalizing r with
  | nil => rfl
  | cons w rest ih =>
    rw [List.foldl_cons, List.foldl_cons, applyPendingWrite_of_full h]
    exact ih (by rw [cache_perform]; exact h)

/-- Forcing performs the pending writes on the objects that it has built. -/
theorem force_eq (data : ResumeData) (values : List Value) (heap : η) :
    force data values heap =
      data.pending.foldl (perform data values) (materializeAll data values (start data heap)) := by
  have hs := Reading.sound_start data heap
  obtain ⟨hbuilt, hready⟩ := Reading.steps_materializeAll values hs
  exact applyPending_of_full ⟨(hbuilt.sound hs).length, hready⟩

theorem resume_of_full {r : Reader η} (h : r.cache.Full data) :
    r.resume data values = (data.numbering.map (data.meaning values r.cache),
      data.pending.foldl (perform data values) r) := by
  unfold resume
  rw [readFrame_of_full h]
  dsimp only
  rw [applyPending_of_full h]

end Reader

end HotLoop
