import HotLoop.Proofs.Resume.Building

/-!
# What a reader is asked for

A reader answers any number of requests, one after another. All of them come to decoding entries, so
each ends, builds what it needs and has not been built yet, and answers with what its entries mean;
this is the same for all requests.
-/

namespace HotLoop.Reader

/-- What a reader may be asked for. -/
inductive Request where
  | decode (t : Tagged)
  | materialize (index : Nat)
  | materializeAll
  | readFrame

variable {η : Type} [VirtualHeap η] (data : ResumeData) (values : List Value)

namespace Request

/-- The entries that are decoded for a request. -/
def entries : Request → List Tagged
  | decode t => [t]
  | materialize i => [.virtual i]
  | materializeAll => (List.range data.virtuals.length).map .virtual
  | readFrame => data.numbering

/-- Building all objects answers nothing. -/
def answers : Request → List Value → List Value
  | materializeAll, _ => []
  | _, vs => vs

/-- The answer to a request, and the reader behind it. -/
def perform (r : Reader η) : Request → List Value × Reader η
  | decode t => let (v, r) := Reader.decode data values t r; ([v], r)
  | materialize i => let (a, r) := Reader.materialize data values i r; ([.ref a], r)
  | materializeAll => ([], Reader.materializeAll data values r)
  | readFrame => Reader.readFrame data values r

/-- The reader behind some requests. -/
def after (r : Reader η) (requests : List Request) : Reader η :=
  requests.foldl (fun r request => (request.perform data values r).2) r

variable {data values}

theorem decodeList_virtual (indices : List Nat) (r : Reader η) :
    (decodeList data values (indices.map .virtual) r).2 =
      indices.foldl (fun r i => (Reader.materialize data values i r).2) r := by
  induction indices generalizing r with
  | nil => rfl
  | cons i rest ih => exact ih _

theorem perform_eq (request : Request) (r : Reader η) :
    let decoded := decodeList data values (request.entries data) r
    request.perform data values r = (request.answers decoded.1, decoded.2) := by
  cases request with
  | materializeAll => exact congrArg (([] : List Value), ·) (decodeList_virtual _ r).symm
  | _ => rfl

section Runs

variable (values) {r : Reader η} (hs : Reading.Sound data ⟨r, [], []⟩)
include hs

theorem steps_perform (request : Request) :
    let result := request.perform data values r
    Reading.Steps data values ⟨r, [], []⟩ ⟨result.2, [], []⟩ ∧
      (∀ t ∈ request.entries data, t.Ready result.2.cache) ∧
      DecodingAll data values (request.entries data) r
        ((request.entries data).map (data.meaning values result.2.cache)) result.2 ∧
      result.1 = request.answers
        ((request.entries data).map (data.meaning values result.2.cache)) := by
  obtain ⟨hsteps, hready, hmeaning⟩ :=
    Reading.steps_decodeList values (request.entries data) hs
  have hdecoding := decodingAll_decodeList values (request.entries data) hs
  rw [perform_eq]
  dsimp only at *
  rw [hmeaning] at hdecoding ⊢
  exact ⟨hsteps, hready, hdecoding, rfl⟩

theorem steps_after (requests : List Request) :
    Reading.Steps data values ⟨r, [], []⟩ ⟨after data values r requests, [], []⟩ := by
  induction requests generalizing r with
  | nil => exact .refl
  | cons request rest ih =>
    have hfirst := (steps_perform values hs request).1
    exact hfirst.trans (ih (hfirst.sound hs))

end Runs

end Request

variable {data values}

omit [VirtualHeap η] in
theorem get?_withCache (heap : η) (cache : VirtualCache) {i : Nat} (hi : i < data.virtuals.length) :
    ((start data heap).withCache cache).cache.get? i = cache.get? i := by
  unfold withCache start VirtualCache.get?
  dsimp only
  rw [List.length_replicate, List.getElem?_append, List.length_take]
  by_cases hlt : i < cache.length
  · rw [if_pos (Nat.lt_min.mpr ⟨hi, hlt⟩), List.getElem?_take_of_lt hi]
  · rw [if_neg fun h => hlt (Nat.lt_of_lt_of_le h (Nat.min_le_right ..)), List.drop_replicate,
      List.getElem?_replicate, List.getElem?_eq_none (Nat.le_of_not_lt hlt)]
    split <;> rfl

omit [VirtualHeap η] in
theorem sound_withCache (heap : η) (cache : VirtualCache) :
    Reading.Sound data ⟨(start data heap).withCache cache, [], []⟩ where
  length := by
    unfold withCache start
    simp
    omega
  nodup := List.nodup_nil
  there i hi := absurd hi List.not_mem_nil

/--
A reader that starts from any cache answers any requests. Each of them comes to an end, though the
virtual objects may refer to each other in cycles, and answers with what its entries mean to this
reader, also later on. It builds the objects that it needs and that are not in the cache, each once
and completely, and changes none that has been there before.
-/
theorem requests_build (data : ResumeData) (values : List Value) (heap : Arena)
    (cache : VirtualCache) (hfits : Arena.Fits (heap.objects.length + data.virtuals.length))
    (earlier : List Request) (request : Request) (later : List Request) :
    let start := (start data heap).withCache cache
    let before := Request.after data values start earlier
    let result := request.perform data values before
    let final := Request.after data values result.2 later
    let meanings := (request.entries data).map (data.meaning values final.cache)
    (∀ i < data.virtuals.length, start.cache.get? i = cache.get? i) ∧
      DecodingAll data values (request.entries data) before meanings result.2 ∧
      result.1 = request.answers meanings ∧
      (∀ t ∈ request.entries data, t.Ready result.2.cache) ∧
      (∃ built, Builds data values before result.2 built) ∧
      ∃ built, Builds data values start final built := by
  intro start before result final meanings
  have hs : Reading.Sound data ⟨start, [], []⟩ := sound_withCache heap cache
  have hbefore := Request.steps_after values hs earlier
  obtain ⟨hsteps, hready, hdecoding, hanswers⟩ :=
    Request.steps_perform values (hbefore.sound hs) request
  have hresult : Reading.Steps data values ⟨start, [], []⟩ ⟨result.2, [], []⟩ :=
    hbefore.trans hsteps
  have hfinal := Request.steps_after values (hresult.sound hs) later
  have hmeanings : (request.entries data).map (data.meaning values result.2.cache) = meanings :=
    List.map_congr_left fun t ht => ((hready t ht).meaning_eq hfinal.grows data values).symm
  rw [hmeanings] at hdecoding hanswers
  exact ⟨fun _ hi => get?_withCache heap cache hi, hdecoding, hanswers, hready,
    Reading.exists_builds hs hfits hbefore hsteps,
    Reading.exists_builds hs hfits .refl (hresult.trans hfinal)⟩

/-- Two objects that refer to each other and to themselves, to one that is in the cache already, and
to one that is out of range; one field is listed twice. -/
def tangledData : ResumeData where
  numbering := [.virtual 1, .virtual 7, .virtual 0]
  virtuals := [
    .struct ⟨1, 16⟩ [(⟨"x", .int, 8⟩, .int 5), (⟨"next", .ref, 0⟩, .virtual 1),
      (⟨"x", .int, 8⟩, .box 0)],
    .array ⟨.ref⟩ [.virtual 0, .virtual 1, .virtual 2, .virtual 7],
    .struct ⟨1, 16⟩ []]

theorem requests_build_tangled :
    let heap : Arena := ⟨[{}]⟩
    let values := [.int 8]
    let start := (start tangledData heap).withCache [none, none, some (Arena.addressOf 0)]
    let result := Request.readFrame.perform tangledData values start
    let final := Request.after tangledData values result.2 [.materializeAll]
    Arena.Fits (heap.objects.length + tangledData.virtuals.length) ∧
      (∃ built, Builds tangledData values start result.2 built) ∧
      result.1 = [.ref (Arena.addressOf 1), .null, .ref (Arena.addressOf 2)] ∧
      result.2.heap.objects.length = 3 ∧ final.heap.objects.length = 3 ∧
      ["x", "next"].map (result.2.heap.field? (Arena.addressOf 2)) =
        [some (.int 8), some (.ref (Arena.addressOf 1))] ∧
      (List.range 5).map (result.2.heap.item? (Arena.addressOf 1)) =
        [some (.ref (Arena.addressOf 2)), some (.ref (Arena.addressOf 1)),
          some (.ref (Arena.addressOf 0)), some .null, none] := by
  intro heap values start result final
  have hfits : Arena.Fits (heap.objects.length + tangledData.virtuals.length) := by
    unfold Arena.Fits
    decide
  obtain ⟨-, -, -, -, hbuilds, -⟩ :=
    requests_build tangledData values heap [none, none, some (Arena.addressOf 0)] hfits []
      .readFrame [.materializeAll]
  exact ⟨hfits, hbuilds, by decide +kernel, by decide +kernel, by decide +kernel, by decide +kernel,
    by decide +kernel⟩

end HotLoop.Reader
