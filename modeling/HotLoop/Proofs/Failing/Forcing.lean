import HotLoop.Proofs.Failing.Interrupts
import HotLoop.Proofs.Resume.Renaming
import HotLoop.Replay.Interpreter

/-!
# Failures of forced frames

Forcing a frame builds all virtual objects and performs the pending writes; the failure of the frame
takes the objects over, but it performs the pending writes once more.
-/

namespace HotLoop

variable {c : Context} {token : UInt64} {frame : DeadFrame} {g : Guard} {owner : Nat}

/-- The frame that forcing hands back. -/
def DeadFrame.forced (frame : DeadFrame) (data : ResumeData) (heap : Arena) : DeadFrame :=
  { frame with saved := some (Reader.force data frame.values heap).cache }

theorem Context.forceNow_spec (hroom : c.preemption.isFull = false)
    (hrunning : c.backend.running.get? token = some frame) (hdescr : frame.descr = .guard g)
    (hkind : g.kind = .forced owner) (heap : Arena) :
    let data := (c.guards.get g).data
    let s := (runFrom (Context.forceNow token) (c, heap)).2
    s.2 = (Reader.force data frame.values heap).heap ∧ s.1.guards = c.guards ∧
      s.1.backend.forced.get? token = some (frame.forced data heap) := by
  dsimp only
  rw [Context.runFrom_forceNow_forced heap hroom hrunning hdescr ⟨owner, hkind⟩]
  exact ⟨rfl, rfl, Table.get?_insert_self ..⟩

namespace Replayer

variable (file : TraceFile) (driver : Driver)

theorem runFrom_blackhole (g : Guard) (frame : DeadFrame) (cache : VirtualCache) (c : Context)
    (r : Replayer) :
    runFrom (blackhole g frame (some cache)) (c, r) =
      let data := (c.guards.get g).data
      let resumed := ((Reader.start data r.heap).withCache cache).resume data frame.values
      (.ok (.continueWith resumed.1), c,
        { r with heap := resumed.2.heap, blackholed := r.blackholed + 1 }) := rfl

theorem runFrom_handleFail (hdescr : frame.descr = .guard g) (hkind : g.kind = .forced driver.id)
    (c : Context) (r : Replayer) :
    let data := (c.guards.get g).data
    let start := (Reader.start data r.heap).withCache (frame.saved.getD [])
    let resumed := start.resume data frame.values
    let s := runFrom ((hooks file).handleFail driver frame) (c, r)
    s.1 = .ok (.continueWith resumed.1) ∧ s.2.2.heap = resumed.2.heap := by
  rw [Hooks.handleFail_guard _ _ _ hdescr, Hooks.handleGuard_forced _ _ _ hkind]
  have hvalues : frame.afterExit.values = frame.values := by
    unfold DeadFrame.afterExit
    split <;> rfl
  have hblackhole := runFrom_blackhole g frame.afterExit (frame.saved.getD []) c.countBlackhole r
  rw [hvalues] at hblackhole
  refine ⟨congrArg Prod.fst hblackhole, congrArg (·.2.2.heap) hblackhole⟩

theorem runFrom_handleFail_unforced (hdescr : frame.descr = .guard g)
    (hkind : g.kind = .forced driver.id) (hsaved : frame.saved = none) (c : Context)
    (r : Replayer) :
    let data := (c.guards.get g).data
    let resumed := (Reader.start data r.heap).resume data frame.values
    let s := runFrom ((hooks file).handleFail driver frame) (c, r)
    s.1 = .ok (.continueWith resumed.1) ∧ s.2.2.heap = resumed.2.heap := by
  have h := runFrom_handleFail file driver hdescr hkind c r
  rw [hsaved] at h
  dsimp only [Option.getD] at h
  rw [Reader.withCache_nil] at h
  exact h

theorem runFrom_handleFail_forced (hdescr : frame.descr = .guard g)
    (hkind : g.kind = .forced driver.id) (c : Context) (r : Replayer) (heap : Arena) :
    let data := (c.guards.get g).data
    let built := Reader.force data frame.values heap
    let resumed := ({ built with heap := r.heap } : Reader Arena).resume data frame.values
    let s := runFrom ((hooks file).handleFail driver (frame.forced data heap)) (c, r)
    s.1 = .ok (.continueWith resumed.1) ∧ s.2.2.heap = resumed.2.heap := by
  intro data built
  have hdescr' : (frame.forced data heap).descr = .guard g := hdescr
  have h := runFrom_handleFail file driver hdescr' hkind c r
  have hfull : built.cache.Full data := (Reader.steps_force data frame.values heap).2
  have hstart := Reader.start_withCache r.heap hfull.length
  have hsaved : (frame.forced data heap).saved.getD [] = built.cache := rfl
  rw [hsaved] at h
  dsimp only at h
  rw [hstart] at h
  exact h

/--
A frame that has been forced goes on with the values with which it would have gone on otherwise, and
with the same heap, but for the addresses of the new objects. Its failure builds none. Forcing needs
room for one more critical section.
-/
theorem forced_fails_alike {c : Context} {r : Replayer} (hroom : c.preemption.isFull = false)
    (hrunning : c.backend.running.get? token = some frame) (hdescr : frame.descr = .guard g)
    (hkind : g.kind = .forced driver.id) (hsaved : frame.saved = none)
    (hfits : Arena.Fits (r.heap.objects.length + (c.guards.get g).data.virtuals.length))
    (hbelow : (c.guards.get g).data.PointsBelow frame.values r.heap.objects.length) :
    let forced := (runFrom (Context.forceNow token) (c, r.heap)).2
    ∃ installed values rename,
      forced.1.backend.forced.get? token = some installed ∧
        let unforced := runFrom ((hooks file).handleFail driver frame) (c, r)
        let failed := runFrom ((hooks file).handleFail driver installed)
          (forced.1, { r with heap := forced.2 })
        unforced.1 = .ok (.continueWith values) ∧
          failed.1 = .ok (.continueWith (values.map (·.rename rename))) ∧
          Arena.RenamedTo r.heap unforced.2.2.heap failed.2.2.heap rename ∧
          failed.2.2.heap.objects.length = forced.2.objects.length := by
  intro forced
  obtain ⟨hheap, hguards, hinstalled⟩ := Context.forceNow_spec hroom hrunning hdescr hkind r.heap
  have hunforced := runFrom_handleFail_unforced file driver hdescr hkind hsaved c r
  have hfailed := runFrom_handleFail_forced file driver hdescr hkind forced.1
    { r with heap := forced.2 } r.heap
  have hguards' : forced.1.guards = c.guards := hguards
  have hheap' : forced.2 = (Reader.force (c.guards.get g).data frame.values r.heap).heap := hheap
  rw [hguards', hheap'] at hfailed
  rw [hheap']
  obtain ⟨rename, hvalues, hrenamed, hlength⟩ := Reader.resume_force hfits hbelow
  refine ⟨_, _, rename, hinstalled, hunforced.1, hfailed.1.trans ?_, ?_, ?_⟩
  · exact congrArg (fun values => Except.ok (FrameExit.continueWith values)) hvalues
  · rw [hunforced.2, hfailed.2]
    exact hrenamed
  · rw [hfailed.2]
    exact hlength

/--
Two virtual objects refer to each other. One of them is stored into an object of the arena behind
the guard, and a third one is not needed by anything.
-/
def cyclicData : ResumeData where
  numbering := [.virtual 2, .box 0, .virtual 7]
  virtuals := [
    .struct ⟨1, 16⟩ [],
    .struct ⟨1, 16⟩ [(⟨"next", .ref, 0⟩, .virtual 2), (⟨"x", .int, 8⟩, .int 5)],
    .array ⟨.ref⟩ [.virtual 1, .box 0]]
  pending := [
    ⟨.box 0, ⟨"next", .ref, 0⟩, none, .virtual 1⟩,
    ⟨.virtual 2, ⟨"", .ref, 0⟩, some 1, .null⟩]

/-- A frame that has left through the guard behind a call. -/
def stopped (values : List Value) : DeadFrame where
  descr := .guard ⟨0, .guardNotForced, .forced 0⟩
  values

/-- Such a frame runs under a token, and its guard has the given resume data. -/
def parked (data : ResumeData) (frame : DeadFrame) : Context where
  collector := .ofMaxAge 0
  counter := .ofBits 1
  guards := ⟨[{ data }]⟩
  backend := { running := .ofList [(9, frame)] }

theorem forced_fails_alike_cyclic :
    let frame := stopped [.ref (Arena.addressOf 0)]
    let c := parked cyclicData frame
    let r : Replayer := { heap := ⟨[{}]⟩ }
    let forced := (runFrom (Context.forceNow 9) (c, r.heap)).2
    c.preemption.isFull = false ∧ c.backend.running.get? 9 = some frame ∧ Arena.Fits 4 ∧
      cyclicData.PointsBelow frame.values 1 ∧
      ∃ installed values rename,
        forced.1.backend.forced.get? 9 = some installed ∧
          let unforced := runFrom ((hooks default).handleFail default frame) (c, r)
          let failed := runFrom ((hooks default).handleFail default installed)
            (forced.1, { r with heap := forced.2 })
          unforced.1 = .ok (.continueWith values) ∧
            failed.1 = .ok (.continueWith (values.map (·.rename rename))) ∧
            Arena.RenamedTo r.heap unforced.2.2.heap failed.2.2.heap rename ∧
            failed.2.2.heap.objects.length = forced.2.objects.length := by
  intro frame c r forced
  have hroom : c.preemption.isFull = false := by decide
  have hrunning : c.backend.running.get? 9 = some frame := rfl
  have hfits : Arena.Fits 4 := by
    unfold Arena.Fits
    decide
  have hbelow : cyclicData.PointsBelow frame.values 1 := by
    intro a k ha hk
    have haddress : a = Arena.addressOf 0 := by
      simpa [frame, stopped, cyclicData] using ha
    subst haddress
    cases hk
    decide
  exact ⟨hroom, hrunning, hfits, hbelow,
    forced_fails_alike default default hroom hrunning rfl rfl rfl hfits hbelow⟩

/--
The failure of a forced frame makes the delayed stores again that forcing has made, on whatever heap
it finds. So that heap is left as it is exactly if the slots of the delayed stores still hold what
was stored to them.
-/
theorem forced_failure_keeps_iff {c : Context} {r : Replayer} (hroom : c.preemption.isFull = false)
    (hrunning : c.backend.running.get? token = some frame) (hdescr : frame.descr = .guard g)
    (hkind : g.kind = .forced driver.id) (later : Arena) :
    let data := (c.guards.get g).data
    let built := Reader.materializeAll data frame.values (Reader.start data r.heap)
    let delayed := data.delayed frame.values built.cache
    let forced := (runFrom (Context.forceNow token) (c, r.heap)).2
    ∃ installed, forced.1.backend.forced.get? token = some installed ∧
      forced.2 = built.heap.storeAll delayed ∧
      let failed := runFrom ((hooks file).handleFail driver installed)
        (forced.1, { r with heap := later })
      failed.1 = .ok (.continueWith
          (data.numbering.map (data.meaning frame.values built.cache))) ∧
        failed.2.2.heap = later.storeAll delayed ∧
        failed.2.2.heap.objects.length = later.objects.length ∧
        ((∀ a s, failed.2.2.heap.at? a s = later.at? a s) ↔ ∀ a s, later.Has a s →
          ∀ v, Arena.lastAt a s delayed = some v → later.at? a s = some v) := by
  intro data built delayed forced
  obtain ⟨hheap, hguards, hinstalled⟩ := Context.forceNow_spec hroom hrunning hdescr hkind r.heap
  have hfailed := runFrom_handleFail_forced file driver hdescr hkind forced.1
    { r with heap := later } r.heap
  have hguards' : forced.1.guards = c.guards := hguards
  rw [hguards'] at hfailed
  have hforce : Reader.force data frame.values r.heap =
      { built with heap := built.heap.storeAll delayed } := by
    rw [Reader.force_eq, Reader.foldl_perform]
  have hfull : built.cache.Full data := by
    have hfull := (Reader.steps_force data frame.values r.heap).2
    rw [hforce] at hfull
    exact hfull
  have hresumed : ({ Reader.force data frame.values r.heap with heap := later } :
      Reader Arena).resume data frame.values =
        (data.numbering.map (data.meaning frame.values built.cache),
          ⟨later.storeAll delayed, built.cache⟩) := by
    have hfull' : (⟨later, built.cache⟩ : Reader Arena).cache.Full data := hfull
    rw [hforce]
    dsimp only
    rw [Reader.resume_of_full hfull', Reader.foldl_perform]
  obtain ⟨hanswer, hafter⟩ := hfailed
  have hafter' : (runFrom ((hooks file).handleFail driver (frame.forced data r.heap))
      (forced.1, { r with heap := later })).2.2.heap = later.storeAll delayed :=
    hafter.trans (congrArg (·.2.heap) hresumed)
  refine ⟨_, hinstalled, hheap.trans (congrArg (·.heap) hforce),
    hanswer.trans (congrArg (fun result => Except.ok (FrameExit.continueWith result.1)) hresumed),
    hafter', ?_, ?_⟩
  · rw [hafter', Arena.length_storeAll]
  · rw [hafter']
    exact forall₂_congr fun a s => Arena.at?_storeAll_eq_iff later delayed a s

/-- A field of a virtual object that is stored to behind the guard. -/
def delayingData : ResumeData where
  numbering := [.virtual 0]
  consts := [.int 7]
  virtuals := [.struct ⟨1, 16⟩ [(⟨"x", .int, 8⟩, .int 5)]]
  pending := [⟨.virtual 0, ⟨"x", .int, 8⟩, none, .const 0⟩]

/-- The field is stored to once more after the frame has been forced. -/
def storedLater : Arena :=
  let forced := (runFrom (Context.forceNow 9) (parked delayingData (stopped []), ({} : Arena))).2
  VirtualHeap.setField forced.2 (Arena.addressOf 0) ⟨"x", .int, 8⟩ (.int 3)

theorem forced_failure_keeps_iff_storedLater :
    let frame := stopped []
    let c := parked delayingData frame
    let delayed := [(Arena.addressOf 0, Place.field ⟨"x", .int, 8⟩, Value.int 7)]
    let forced := (runFrom (Context.forceNow 9) (c, ({} : Arena))).2
    c.preemption.isFull = false ∧ c.backend.running.get? 9 = some frame ∧
      ∃ installed, forced.1.backend.forced.get? 9 = some installed ∧
        let failed := runFrom ((hooks default).handleFail default installed)
          (forced.1, { heap := storedLater })
        failed.2.2.heap = storedLater.storeAll delayed ∧
          ((∀ a s, failed.2.2.heap.at? a s = storedLater.at? a s) ↔
            ∀ a s, storedLater.Has a s → ∀ v, Arena.lastAt a s delayed = some v →
              storedLater.at? a s = some v) := by
  intro frame c delayed forced
  have hroom : c.preemption.isFull = false := by decide
  have hrunning : c.backend.running.get? 9 = some frame := rfl
  obtain ⟨installed, hinstalled, -, -, hheap, -, hiff⟩ :=
    forced_failure_keeps_iff default default (r := {}) hroom hrunning rfl rfl storedLater
  exact ⟨hroom, hrunning, installed, hinstalled, hheap, hiff⟩

/-- What has been stored later is lost. -/
theorem forced_failure_loses_storedLater :
    let forced := (runFrom (Context.forceNow 9) (parked delayingData (stopped []), ({} : Arena))).2
    ∃ installed, forced.1.backend.forced.get? 9 = some installed ∧
      let failed := runFrom ((hooks default).handleFail default installed)
        (forced.1, { heap := storedLater })
      storedLater.field? (Arena.addressOf 0) "x" = some (.int 3) ∧
        failed.2.2.heap.field? (Arena.addressOf 0) "x" = some (.int 7) :=
  ⟨_, rfl, by decide +kernel, by decide +kernel⟩

end Replayer

end HotLoop
