import HotLoop.Proofs.Resume.Steps

/-!
# Reading resume data comes to an end

An entry is decoded by building an object, and an object is built by decoding the entries that go
into it. The objects may refer to each other in cycles; still the recursion ends, without a bound on
how deep it goes, because an object is put into the cache before its first entry is decoded.
-/

namespace HotLoop

namespace Reader

variable {η : Type} [VirtualHeap η]

section Relations

variable (data : ResumeData) (values : List Value)

mutual

/-- An entry is decoded; the recursion may go as deep as it needs to, but it has to end. -/
inductive Decoding : Tagged → Reader η → Value → Reader η → Prop where
  | plain {t : Tagged} (r : Reader η) (ht : ∀ i, t ≠ .virtual i) :
    Decoding t r (data.meaning values r.cache t) r
  | cached {i : Nat} {a : UInt64} (r : Reader η) (hcached : r.cache.get? i = some a) :
    Decoding (.virtual i) r (.ref a) r
  | outside {i : Nat} (r : Reader η) (hnew : r.cache.get? i = none)
    (hinfo : data.virtuals[i]? = none) : Decoding (.virtual i) r .null r
  | build {i : Nat} {info : VirtualInfo} {r r' : Reader η} (hnew : r.cache.get? i = none)
    (hinfo : data.virtuals[i]? = some info)
    (hfill : Filling (info.allocate r.heap).1 info.contents
      (r.remember (info.allocate r.heap).2 i (info.allocate r.heap).1) r') :
    Decoding (.virtual i) r (.ref (info.allocate r.heap).1) r'

/-- Entries are decoded and stored into an object one after another. -/
inductive Filling : UInt64 → List (Place × Tagged) → Reader η → Reader η → Prop where
  | nil (object : UInt64) (r : Reader η) : Filling object [] r r
  | cons {object : UInt64} {p : Place} {t : Tagged} {v : Value} {rest : List (Place × Tagged)}
    {r r' r'' : Reader η} (hdecode : Decoding t r v r')
    (hrest : Filling object rest { r' with heap := VirtualHeap.store r'.heap object p v } r'') :
    Filling object ((p, t) :: rest) r r''

end

/-- Entries are decoded one after another. -/
inductive DecodingAll : List Tagged → Reader η → List Value → Reader η → Prop where
  | nil (r : Reader η) : DecodingAll [] r [] r
  | cons {t : Tagged} {v : Value} {rest : List Tagged} {vs : List Value} {r r' r'' : Reader η}
    (hdecode : Decoding data values t r v r') (hrest : DecodingAll rest r' vs r'') :
    DecodingAll (t :: rest) r (v :: vs) r''

end Relations

variable {data : ResumeData} {values : List Value}

theorem decoding_decodeWith {build : Nat → Reader η → UInt64 × Reader η} {r : Reader η}
    (hbuild : ∀ i, Decoding data values (.virtual i) r (.ref (build i r).1) (build i r).2)
    (t : Tagged) : Decoding data values t r (decodeWith data values build t r).1
      (decodeWith data values build t r).2 := by
  cases t with
  | virtual i => exact hbuild i
  | _ => exact .plain r nofun

theorem filling_fill {decode : Tagged → Reader η → Value × Reader η} {i : Nat} {info : VirtualInfo}
    (hinfo : data.virtuals[i]? = some info) {partials : List (Nat × List (Place × Tagged))}
    {done : List PendingWrite} {object : UInt64}
    (hdecode : ∀ t r stored, Reading.Sound data ⟨r, (i, stored) :: partials, done⟩ →
      Reading.Decodes data values t ⟨r, (i, stored) :: partials, done⟩ (decode t r) ∧
        Decoding data values t r (decode t r).1 (decode t r).2)
    (rest stored : List (Place × Tagged)) (hcontents : info.contents = stored ++ rest)
    (r : Reader η) (hs : Reading.Sound data ⟨r, (i, stored) :: partials, done⟩)
    (hobject : r.cache.get? i = some object) :
    Filling data values object rest r (fill decode object rest r) := by
  induction rest generalizing stored r with
  | nil => exact .nil object r
  | cons e rest ih =>
    obtain ⟨p, t⟩ := e
    obtain ⟨⟨hsteps, hready, hmeaning⟩, hdecoding⟩ := hdecode t r stored hs
    have hobject' := hsteps.grows.get? i object hobject
    have hstore : Reading.Step data values ⟨(decode t r).2, (i, stored) :: partials, done⟩ _ :=
      .store info hinfo hcontents hobject' hready
    rw [← hmeaning] at hstore
    have hall : Reading.Steps data values _ _ := hsteps.tail hstore
    refine .cons hdecoding (ih (stored ++ [(p, t)]) ?_ _ (hall.sound hs) hobject')
    rw [hcontents, List.append_assoc]
    rfl

theorem decoding_materializeWithin (values : List Value) (depth i : Nat) (s : Reading η)
    (hs : s.Sound data)
    (hdepth : data.virtuals.length ≤ depth + s.partials.length) :
    let result := materializeWithin data values depth i s.reader
    Decoding data values (.virtual i) s.reader (.ref result.1) result.2 := by
  -- by induction on the depth, which suffices for the objects that are not under construction
  induction depth generalizing i s with
  | zero =>
    rw [materializeWithin_eq]
    cases hcache : s.reader.cache.get? i with
    | some object => exact .cached _ hcache
    | none =>
      refine .outside _ hcache (List.getElem?_eq_none (Nat.le_of_not_lt fun hi => ?_))
      have := hs.partials_lt hi hcache
      omega
  | succ depth ih =>
    rw [materializeWithin_eq]
    cases hcache : s.reader.cache.get? i with
    | some object => exact .cached _ hcache
    | none =>
      cases hinfo : data.virtuals[i]? with
      | none => exact .outside _ hcache hinfo
      | some info =>
        refine .build hcache hinfo ?_
        have hstart : Reading.Step data values s _ := .start i info hinfo hcache
        have hsound := hstart.sound hs
        have hlt : i < s.reader.cache.length :=
          hs.length ▸ (List.getElem?_eq_some_iff.mp hinfo).1
        refine filling_fill hinfo (fun t r stored hsound' => ?_) info.contents [] rfl _ hsound
          (VirtualCache.get?_set_self _ hlt)
        have hroom : data.virtuals.length ≤ depth + ((i, stored) :: s.partials).length := by
          rw [List.length_cons]
          omega
        exact ⟨Reading.decodes_decodeWith
            (fun j => Reading.steps_materializeWithin values depth j _ hsound' hroom) t,
          decoding_decodeWith (fun j => ih j _ hsound' hroom) t⟩

theorem decoding_decode (values : List Value) (t : Tagged) {r : Reader η}
    (hs : Reading.Sound data ⟨r, [], []⟩) :
    Decoding data values t r (decode data values t r).1 (decode data values t r).2 :=
  decoding_decodeWith
    (fun i => decoding_materializeWithin values _ i _ hs (Nat.le_refl _)) t

theorem decodingAll_decodeList (values : List Value) (entries : List Tagged) {r : Reader η}
    (hs : Reading.Sound data ⟨r, [], []⟩) :
    let result := decodeList data values entries r
    DecodingAll data values entries r result.1 result.2 := by
  induction entries generalizing r with
  | nil => exact .nil r
  | cons t rest ih =>
    have hsteps := (Reading.decodes_decode values t hs).steps
    exact .cons (decoding_decode values t hs) (ih (hsteps.sound hs))

end Reader

end HotLoop
