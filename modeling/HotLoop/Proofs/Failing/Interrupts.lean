import HotLoop.Force
import HotLoop.Proofs.Failing.Handling
import HotLoop.Proofs.Resume.Steps

/-!
# Forcing is all or nothing

If no frame runs under a token, forcing changes nothing. Otherwise the frame is handed back with all
its virtual objects before an interrupt is let through that waits meanwhile; so to be interrupted
means that the forcing is complete. The frame does not run any more, and cannot be forced again. All
that takes one more critical section, without which nothing is done.
-/

namespace HotLoop

/-- The forcing of a frame has gone through to the end; `cache` has the objects it has built. -/
structure Context.HandsBack (token : UInt64) (frame : DeadFrame) (cache : VirtualCache)
    (before after : Context) : Prop where
  running : ∀ t, after.backend.running.get? t =
    if t = token then none else before.backend.running.get? t
  forced : ∀ t, after.backend.forced.get? t =
    if t = token then some { frame with saved := some cache } else before.backend.forced.get? t
  stats : after.stats = { before.stats with forcings := before.stats.forcings + 1 }

/-- What may happen around forcings. -/
inductive ForceEvent (η : Type) where
  | park (token : UInt64) (frame : DeadFrame)
  | force (token : UInt64)
  /-- The frames that run are left alone: an interrupt is requested, a section is opened or closed,
  the heap is written to, code is compiled. -/
  | other (change : Context × η → Context × η)
    (keeps : ∀ s, (change s).1.backend.running = s.1.backend.running)

theorem Preemption.checkpoint_eq (p : Preemption) :
    p.checkpoint =
      (if p.pending = true ∧ p.depth = 0 then .error .interrupted else .ok (),
        { p with pending := p.pending && p.depth != 0 }) := by
  obtain ⟨depth, pending⟩ := p
  by_cases hdepth : depth = 0
  · subst hdepth
    cases pending <;> rfl
  · have hpos : 0 < depth := UInt32.pos_iff_ne_zero.mpr hdepth
    simp [checkpoint, inCriticalSection, hpos, hdepth]

variable {η : Type} [VirtualHeap η]

def ForceEvent.perform (s : Context × η) : ForceEvent η → Context × η
  | park token frame => ({ s.1 with backend := s.1.backend.park token frame }, s.2)
  | force token => (runFrom (Context.forceNow token) s).2
  | other change _ => change s

namespace Context

variable {c : Context} {token : UInt64} {frame : DeadFrame} {g : Guard} (heap : η)

def handBack (c : Context) (token : UInt64) (frame : DeadFrame) : Context :=
  let backend := { c.backend with running := c.backend.running.erase token }
  { c with
    backend := backend.install token frame
    stats := { c.stats with forcings := c.stats.forcings + 1 } }

section Frames

theorem runFrom_forceFrame_unknown (hrunning : c.backend.running.get? token = none) :
    runFrom (forceFrame token) (c, heap) =
      (.error (.error (.unknownForceToken token)), c, heap) := by
  have hforce : c.backend.force token = (.error (.unknownForceToken token), c.backend) := by
    unfold Backend.force
    rw [hrunning]
  unfold forceFrame
  simp only [runFrom_bind, runFrom_get, hforce, runFrom_set, JitM.ofError, runFrom_throw]

theorem force_running (hrunning : c.backend.running.get? token = some frame) :
    c.backend.force token =
      (.ok frame, { c.backend with running := c.backend.running.erase token }) := by
  unfold Backend.force
  rw [hrunning]

theorem runFrom_forceFrame_forced (hrunning : c.backend.running.get? token = some frame)
    (hdescr : frame.descr = .guard g) (hforced : g.IsForced) :
    let built := Reader.force (c.guards.get g).data frame.values heap
    runFrom (forceFrame token) (c, heap) =
      (.ok (), c.handBack token { frame with saved := some built.cache }, built.heap) := by
  obtain ⟨id, opcode, kind⟩ := g
  obtain ⟨owner, hkind⟩ := hforced
  dsimp only at hkind
  subst hkind
  have hforce := force_running hrunning
  obtain ⟨descr, values, exception, forceToken, saved⟩ := frame
  dsimp only at hdescr
  subst hdescr
  unfold forceFrame
  simp only [runFrom_bind, runFrom_get, hforce, runFrom_set, JitM.ofError, runFrom_pure]
  rfl

theorem runFrom_forceFrame_elsewhere (hrunning : c.backend.running.get? token = some frame)
    (hdescr : ∀ g, frame.descr = .guard g → ¬ g.IsForced) :
    runFrom (forceFrame token) (c, heap) =
      (.error (.fault .notStoppedAtForcedGuard),
        { c with backend := { c.backend with running := c.backend.running.erase token } },
        heap) := by
  have hforce := force_running hrunning
  obtain ⟨descr, values, exception, forceToken, saved⟩ := frame
  unfold forceFrame
  simp only [runFrom_bind, runFrom_get, hforce, runFrom_set, JitM.ofError, runFrom_pure]
  split
  · rename_i id opcode driver
    exact absurd ⟨driver, rfl⟩ (hdescr _ rfl)
  · rfl

theorem forceFrame_cases (c : Context) (token : UInt64) :
    c.backend.running.get? token = none ∨
      ∃ frame, c.backend.running.get? token = some frame ∧
        ((∃ g, frame.descr = .guard g ∧ g.IsForced) ∨
          ∀ g, frame.descr = .guard g → ¬ g.IsForced) := by
  cases hrunning : c.backend.running.get? token with
  | none => exact .inl rfl
  | some frame =>
    refine .inr ⟨frame, rfl, ?_⟩
    by_cases hguard : ∃ g, frame.descr = .guard g ∧ g.IsForced
    · exact .inl hguard
    · exact .inr fun g hdescr hforced => hguard ⟨g, hdescr, hforced⟩

theorem preemption_forceFrame (c : Context) (token : UInt64) (heap : η) :
    let r := runFrom (forceFrame token) (c, heap)
    r.2.1.preemption = c.preemption ∧ r.1 ≠ .error (.error .interrupted) := by
  obtain hunknown | ⟨frame, hrunning, ⟨g, hdescr, hforced⟩ | helse⟩ := forceFrame_cases c token
  · rw [runFrom_forceFrame_unknown heap hunknown]
    exact ⟨rfl, fun h => by cases h⟩
  · rw [runFrom_forceFrame_forced heap hrunning hdescr hforced]
    exact ⟨rfl, fun h => by cases h⟩
  · rw [runFrom_forceFrame_elsewhere heap hrunning helse]
    exact ⟨rfl, fun h => by cases h⟩

theorem running_forceFrame (c : Context) (token : UInt64) (heap : η) (t : UInt64) :
    (runFrom (forceFrame token) (c, heap)).2.1.backend.running.get? t =
      if t = token then none else c.backend.running.get? t := by
  obtain hunknown | ⟨frame, hrunning, ⟨g, hdescr, hforced⟩ | helse⟩ := forceFrame_cases c token
  · rw [runFrom_forceFrame_unknown heap hunknown]
    split
    · rename_i heq
      rw [heq]
      exact hunknown
    · rfl
  · rw [runFrom_forceFrame_forced heap hrunning hdescr hforced]
    exact Table.get?_erase ..
  · rw [runFrom_forceFrame_elsewhere heap hrunning helse]
    exact Table.get?_erase ..

theorem handsBack_handBack (c : Context) (token : UInt64) (frame : DeadFrame)
    (cache : VirtualCache) :
    HandsBack token frame cache c (c.handBack token { frame with saved := some cache }) where
  running _ := Table.get?_erase ..
  forced _ := Table.get?_insert ..
  stats := rfl

end Frames

theorem runFrom_forceNow_full (token : UInt64) (hfull : c.preemption.isFull = true) :
    runFrom (forceNow token) (c, heap) = (.error (.fault .tooManySections), c, heap) := by
  unfold forceNow
  rw [runFrom_bind, runFrom_get]
  dsimp only
  rw [if_pos hfull]
  rfl

theorem runFrom_forceNow (token : UInt64) (hroom : c.preemption.isFull = false) :
    let r := runFrom (forceFrame token) (c.modifyPreemption (·.enter), heap)
    let checked := c.preemption.checkpoint
    runFrom (forceNow token) (c, heap) =
      match r.1 with
      | .ok _ => (checked.1.mapError .error, { r.2.1 with preemption := checked.2 }, r.2.2)
      | .error stop => (.error stop, { r.2.1 with preemption := c.preemption }, r.2.2) := by
  obtain ⟨hpreemption, -⟩ := preemption_forceFrame (c.modifyPreemption (·.enter)) token heap
  have hopens : ¬ c.preemption.isFull = true := by simp [hroom]
  unfold forceNow
  rw [runFrom_bind, runFrom_get]
  dsimp only
  rw [if_neg hopens, runFrom_bind, runFrom_modify]
  dsimp only
  rw [runFrom_bind, runFrom_finally]
  generalize runFrom (forceFrame token) (c.modifyPreemption (·.enter), heap) = framed at *
  obtain ⟨answer, after, heap'⟩ := framed
  dsimp only at hpreemption ⊢
  have hleave : after.modifyPreemption (·.leave) = { after with preemption := c.preemption } := by
    unfold modifyPreemption
    rw [hpreemption]
    exact congrArg (fun p => { after with preemption := p }) (Preemption.leave_enter hroom)
  rw [hleave]
  cases answer with
  | error stop => rfl
  | ok _ =>
    dsimp only
    rw [runFrom_bind, runFrom_get]
    dsimp only
    rw [runFrom_bind, runFrom_set]
    dsimp only
    cases c.preemption.checkpoint.1 <;> rfl

theorem depth_forceNow (c : Context) (token : UInt64) (heap : η) :
    (runFrom (forceNow token) (c, heap)).2.1.preemption.depth = c.preemption.depth := by
  cases hfull : c.preemption.isFull with
  | true => rw [runFrom_forceNow_full heap token hfull]
  | false =>
    rw [runFrom_forceNow heap token hfull]
    dsimp only
    split
    · exact congrArg (·.2.depth) c.preemption.checkpoint_eq
    · rfl

theorem running_forceNow (token : UInt64) (hroom : c.preemption.isFull = false) (t : UInt64) :
    (runFrom (forceNow token) (c, heap)).2.1.backend.running.get? t =
      if t = token then none else c.backend.running.get? t := by
  refine Eq.trans ?_ (running_forceFrame (c.modifyPreemption (·.enter)) token heap t)
  rw [runFrom_forceNow heap token hroom]
  dsimp only
  split <;> rfl

theorem runFrom_forceNow_unknown (hroom : c.preemption.isFull = false)
    (hrunning : c.backend.running.get? token = none) :
    runFrom (forceNow token) (c, heap) =
      (.error (.error (.unknownForceToken token)), c, heap) := by
  have hentered : (c.modifyPreemption (·.enter)).backend.running.get? token = none := hrunning
  have hframe := runFrom_forceFrame_unknown heap hentered
  rw [runFrom_forceNow heap token hroom, hframe]
  rfl

theorem runFrom_forceNow_forced (hroom : c.preemption.isFull = false)
    (hrunning : c.backend.running.get? token = some frame) (hdescr : frame.descr = .guard g)
    (hforced : g.IsForced) :
    let built := Reader.force (c.guards.get g).data frame.values heap
    runFrom (forceNow token) (c, heap) =
      (if c.preemption.pending = true ∧ c.preemption.depth = 0
        then .error (.error .interrupted) else .ok (),
        { c.handBack token { frame with saved := some built.cache } with
          preemption := { c.preemption with
            pending := c.preemption.pending && c.preemption.depth != 0 } },
        built.heap) := by
  have hentered : (c.modifyPreemption (·.enter)).backend.running.get? token = some frame := hrunning
  have hframe := runFrom_forceFrame_forced heap hentered hdescr hforced
  rw [runFrom_forceNow heap token hroom, hframe, c.preemption.checkpoint_eq]
  dsimp only
  split <;> rfl

theorem runFrom_forceNow_elsewhere (hroom : c.preemption.isFull = false)
    (hrunning : c.backend.running.get? token = some frame)
    (helse : ∀ g, frame.descr = .guard g → ¬ g.IsForced) :
    (runFrom (forceNow token) (c, heap)).1 = .error (.fault .notStoppedAtForcedGuard) := by
  have hentered : (c.modifyPreemption (·.enter)).backend.running.get? token = some frame := hrunning
  have hframe := runFrom_forceFrame_elsewhere heap hentered helse
  rw [runFrom_forceNow heap token hroom, hframe]

theorem exists_of_interrupted
    (h : (runFrom (forceNow token) (c, heap)).1 = .error (.error .interrupted)) :
    ∃ frame g,
      c.backend.running.get? token = some frame ∧ frame.descr = .guard g ∧ g.IsForced := by
  cases hfull : c.preemption.isFull with
  | true =>
    rw [runFrom_forceNow_full heap token hfull] at h
    cases h
  | false =>
    obtain hunknown | ⟨frame, hrunning, ⟨g, hdescr, hforced⟩ | helse⟩ := forceFrame_cases c token
    · rw [runFrom_forceNow_unknown heap hfull hunknown] at h
      cases h
    · exact ⟨frame, g, hrunning, hdescr, hforced⟩
    · rw [runFrom_forceNow_elsewhere heap hfull hrunning helse] at h
      cases h

theorem running_perform {s : Context × η} {e : ForceEvent η}
    (hpark : ∀ frame, e ≠ .park token frame) (hnone : s.1.backend.running.get? token = none) :
    (e.perform s).1.backend.running.get? token = none := by
  cases e with
  | park t frame =>
    have hne : token ≠ t := fun heq => hpark frame (by rw [heq])
    exact (Table.get?_insert ..).trans ((if_neg hne).trans hnone)
  | force t =>
    cases hfull : s.1.preemption.isFull with
    | true => exact (congrArg (·.2.1.backend.running.get? token)
        (runFrom_forceNow_full s.2 t hfull)).trans hnone
    | false =>
      refine (running_forceNow s.2 t hfull token).trans ?_
      split
      · rfl
      · exact hnone
  | other change keeps => exact (congrArg (·.get? token) (keeps s)).trans hnone

theorem running_foldl_perform {s : Context × η} {events : List (ForceEvent η)}
    (hpark : ∀ frame, .park token frame ∉ events)
    (hnone : s.1.backend.running.get? token = none) :
    (events.foldl ForceEvent.perform s).1.backend.running.get? token = none := by
  induction events generalizing s with
  | nil => exact hnone
  | cons e rest ih =>
    refine ih (fun frame hmem => hpark frame (List.mem_cons_of_mem _ hmem)) ?_
    exact running_perform (fun frame heq => hpark frame (heq ▸ List.mem_cons_self ..)) hnone

/--
Forcing is all or nothing. If no more sections can be counted, it is a fault and nothing happens.
Otherwise nothing changes if no frame runs under the token. A frame that has stopped at a forced
guard is handed back, with all of its virtual objects, inside a section, and even when an interrupt
is let through afterwards; and only then is one let through. All sections are open again that were
open before. The token cannot be forced again until another frame is parked under it.
-/
theorem forceNow_allOrNothing (c : Context) (token : UInt64) (heap : η) :
    let r := runFrom (forceNow token) (c, heap)
    r.2.1.preemption.depth = c.preemption.depth ∧
      (c.preemption.isFull = true → r = (.error (.fault .tooManySections), c, heap)) ∧
      (r.1 = .error (.error .interrupted) →
        ∃ frame g,
          c.backend.running.get? token = some frame ∧ frame.descr = .guard g ∧ g.IsForced) ∧
      (c.preemption.isFull = false →
        (c.backend.running.get? token = none →
          r = (.error (.error (.unknownForceToken token)), c, heap)) ∧
        (∀ frame g, c.backend.running.get? token = some frame → frame.descr = .guard g →
          g.IsForced →
          let built := Reader.force (c.guards.get g).data frame.values heap
          built.cache.Full (c.guards.get g).data ∧ c.HandsBack token frame built.cache r.2.1 ∧
            r.2.2 = built.heap ∧
            (r.1 = if c.preemption.pending = true ∧ c.preemption.depth = 0
              then .error (.error .interrupted) else .ok ()) ∧
            r.2.1.preemption.pending = (c.preemption.pending && c.preemption.depth != 0) ∧
            let framed := runFrom (forceFrame token) (c.modifyPreemption (·.enter), heap)
            c.HandsBack token frame built.cache framed.2.1 ∧
              framed.2.1.preemption = c.preemption.enter ∧
              c.preemption.enter.inCriticalSection = true) ∧
        ∀ events : List (ForceEvent η), (∀ frame, .park token frame ∉ events) →
          let s := events.foldl ForceEvent.perform r.2
          runFrom (forceNow token) s =
            (.error (if s.1.preemption.isFull = true then .fault .tooManySections
              else .error (.unknownForceToken token)), s)) := by
  intro r
  refine ⟨depth_forceNow c token heap, runFrom_forceNow_full heap token,
    exists_of_interrupted heap, fun hroom => ⟨runFrom_forceNow_unknown heap hroom,
      fun frame g hrunning hdescr hforced => ?_, fun events hpark => ?_⟩⟩
  · obtain ⟨hrun, hforce, hstats⟩ :=
      handsBack_handBack c token frame (Reader.force (c.guards.get g).data frame.values heap).cache
    have hr : r = _ := runFrom_forceNow_forced heap hroom hrunning hdescr hforced
    have hentered : (c.modifyPreemption (·.enter)).backend.running.get? token = some frame :=
      hrunning
    have hframed := runFrom_forceFrame_forced heap hentered hdescr hforced
    rw [hr, hframed]
    exact ⟨(Reader.steps_force _ _ _).2, ⟨hrun, hforce, hstats⟩, rfl, rfl, rfl,
      ⟨hrun, hforce, hstats⟩, rfl, Preemption.inCriticalSection_enter hroom⟩
  · have hnone := running_foldl_perform (s := r.2) hpark
      ((running_forceNow heap token hroom token).trans (if_pos rfl))
    dsimp only
    split
    · rename_i hfull
      exact runFrom_forceNow_full _ token hfull
    · rename_i hfull
      exact runFrom_forceNow_unknown _ (Bool.eq_false_iff.mpr hfull) hnone

end Context

def selfReferring : ResumeData where
  numbering := [.virtual 0]
  virtuals := [.struct ⟨1, 16⟩ [(⟨"next", .ref, 0⟩, .virtual 0)]]

def forcibleFrame : DeadFrame where
  descr := .guard ⟨0, .guardNotForced, .forced 0⟩
  values := []

/-- A frame that can be forced runs under the token nine. -/
def oneRunning (preemption : Preemption) : Context where
  collector := .ofMaxAge 0
  counter := .ofBits 1
  guards := ⟨[{ data := selfReferring }]⟩
  backend := { running := .ofList [(9, forcibleFrame)] }
  preemption

/--
The waiting interrupt is let through when the frame has been handed back. With a section open it
goes on waiting. Afterwards the token is unknown, also when another interrupt has been requested.
-/
theorem Context.forceNow_allOrNothing_interrupted :
    let c := oneRunning ⟨0, true⟩
    let r := runFrom (forceNow 9) (c, ({} : Arena))
    let inside := runFrom (forceNow 9) (oneRunning ⟨1, true⟩, ({} : Arena))
    let request : ForceEvent Arena :=
      .other (fun s => (s.1.modifyPreemption (·.request), s.2)) fun _ => rfl
    (r.1 = .error (.error .interrupted) ∧ r.2.1.preemption = ⟨0, false⟩) ∧
      c.HandsBack 9 forcibleFrame [some (Arena.addressOf 0)] r.2.1 ∧
      (inside.1 = .ok () ∧ inside.2.1.preemption = ⟨1, true⟩) ∧
      let s := [request].foldl ForceEvent.perform r.2
      s.1.preemption.pending = true ∧
        runFrom (forceNow 9) s = (.error (.error (.unknownForceToken 9)), s) := by
  intro c r inside request
  obtain ⟨hdepth, -, -, hroom⟩ := forceNow_allOrNothing c 9 ({} : Arena)
  obtain ⟨-, hforced, hagain⟩ := hroom (by decide)
  obtain ⟨-, hback, -, hanswer, hpending, -⟩ := hforced forcibleFrame _ rfl rfl ⟨0, rfl⟩
  obtain ⟨hdepth', -, -, hroom'⟩ :=
    forceNow_allOrNothing (oneRunning ⟨1, true⟩) 9 ({} : Arena)
  obtain ⟨-, hforced', -⟩ := hroom' (by decide)
  obtain ⟨-, -, -, hanswer', hpending', -⟩ := hforced' forcibleFrame _ rfl rfl ⟨0, rfl⟩
  have hdelivered : r.2.1.preemption = ⟨0, false⟩ := Preemption.ext hdepth hpending
  have hwaits : inside.2.1.preemption = ⟨1, true⟩ := Preemption.ext hdepth' hpending'
  have hpark (frame : DeadFrame) : .park 9 frame ∉ [request] :=
    fun hmem => absurd (List.mem_singleton.mp hmem) nofun
  have hrequested : ([request].foldl ForceEvent.perform r.2).1.preemption = ⟨0, true⟩ :=
    congrArg Preemption.request hdelivered
  have hroom : ¬ ([request].foldl ForceEvent.perform r.2).1.preemption.isFull = true := by
    rw [hrequested]
    decide
  exact ⟨⟨hanswer, hdelivered⟩, hback, ⟨hanswer', hwaits⟩, congrArg (·.pending) hrequested,
    (hagain [request] hpark).trans (by rw [if_neg hroom])⟩

end HotLoop
