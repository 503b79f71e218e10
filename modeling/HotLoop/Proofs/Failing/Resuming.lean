import HotLoop.Proofs.Failing.Forcing
import HotLoop.Proofs.Replay.Events

/-!
# Resuming from the resume data or from the frame

A failure that is blackholed goes on with what the resume data says about the interpreter slots. A
failure behind which a bridge is recorded goes on with the values of the frame. The two come to the
same exactly if every slot that does not stand for the value at its own place of the frame, because
its fail argument has been folded, finds its value there nevertheless.
-/

namespace HotLoop

/--
The interpreter slots are the values of the frame, one by one: each of them stands for the value at
its own place, or the frame happens to hold there what it stands for.
-/
def ResumeData.Mirrors (data : ResumeData) (values : List Value) : Prop :=
  data.numbering.length = values.length ∧ ∀ (i : Nat) (t : Tagged), data.numbering[i]? = some t →
    t = .box i ∨ values[i]? = some (data.meaning values [] t)

namespace ResumeData

variable {data : ResumeData} {values : List Value}

theorem mirrors_iff : data.Mirrors values ↔ data.numbering.map (data.meaning values []) = values := by
  constructor
  · rintro ⟨hlength, hslots⟩
    refine List.ext_getElem (by rw [List.length_map, hlength]) fun i hi hi' => ?_
    rw [List.length_map] at hi
    rw [List.getElem_map]
    rcases hslots i _ (List.getElem?_eq_getElem hi) with hbox | hvalue
    · rw [hbox, meaning, List.getElem?_eq_getElem hi', Option.getD_some]
    · rw [List.getElem?_eq_getElem hi'] at hvalue
      exact (Option.some.inj hvalue).symm
  · intro h
    refine ⟨by rw [← List.length_map (data.meaning values []), h], fun i t ht => .inr ?_⟩
    have hat := congrArg (·[i]?) h
    simpa [List.getElem?_map, ht] using hat.symm

theorem full_nil (hvirtuals : data.virtuals = []) : VirtualCache.Full data [] :=
  ⟨hvirtuals ▸ rfl, fun i hi => absurd hi (Nat.not_lt_zero i)⟩

theorem resume_start {η : Type} [VirtualHeap η] (hvirtuals : data.virtuals = [])
    (hpending : data.pending = []) (values : List Value) (heap : η) :
    (Reader.start data heap).resume data values =
      (data.numbering.map (data.meaning values []), ⟨heap, []⟩) := by
  have hstart : Reader.start data heap = ⟨heap, []⟩ := by
    rw [Reader.start, hvirtuals]
    rfl
  have hfull : (⟨heap, []⟩ : Reader η).cache.Full data := full_nil hvirtuals
  rw [hstart, Reader.resume_of_full hfull, hpending]
  rfl

end ResumeData

theorem GuardTable.get_of_prefix {t t' : GuardTable} {g : Guard} (h : t.records <+: t'.records)
    (hg : g.id < t.records.length) : t'.get g = t.get g := by
  obtain ⟨new, hnew⟩ := h
  rw [get, get, ← hnew, List.getElem?_append_left hg]

namespace Replayer

variable {file : TraceFile} {driver : Driver} {g : Guard} {frame : DeadFrame} {exit : FrameExit}
  {c c' : Context} {r r' : Replayer}

private theorem runFrom_blackhole_none (g : Guard) (frame : DeadFrame) (c : Context) (r : Replayer) :
    runFrom (blackhole g frame none) (c, r) =
      let data := (c.guards.get g).data
      let resumed := (Reader.start data r.heap).resume data frame.values
      (.ok (.continueWith resumed.1), c,
        { r with heap := resumed.2.heap, blackholed := r.blackholed + 1 }) := rfl

/-- How a failure has gone on: blackholed with the values `decoded`, or behind a recorded bridge. -/
inductive Continues (r : Replayer) (frame : DeadFrame) (decoded : List Value) :
    FrameExit → Replayer → Prop where
  | blackholed : Continues r frame decoded (.continueWith decoded)
      { r with blackholed := r.blackholed + 1 }
  | traced : Continues r frame decoded (.continueWith frame.values) { r with traced := r.traced + 1 }

section Plain

variable {data : ResumeData} (hvirtuals : data.virtuals = []) (hpending : data.pending = [])

include hvirtuals hpending in
private theorem continues_blackhole (hdata : (c.guards.get g).data = data)
    (h : runFrom (blackhole g frame none) (c, r) = (.ok exit, (c', r'))) :
    Continues r frame (data.numbering.map (data.meaning frame.values [])) exit r' := by
  rw [runFrom_blackhole_none, hdata] at h
  dsimp only at h
  rw [ResumeData.resume_start hvirtuals hpending] at h
  cases h
  exact .blackholed

include hvirtuals hpending in
private theorem continues_trace (hg : g.id < c.guards.records.length)
    (hdata : (c.guards.get g).data = data)
    (h : runFrom (trace file driver g frame) (c, r) = (.ok exit, (c', r'))) :
    Continues r frame (data.numbering.map (data.meaning frame.values [])) exit r' := by
  rw [trace, runFrom_bind, runFrom_get] at h
  dsimp only at h
  split at h
  · rename_i bridge hbridge
    rw [runFrom_bind_eq_ok] at h
    obtain ⟨⟨result, recorder⟩, u, hrecord, h⟩ := h
    obtain ⟨answer, q, hrun, hstate, -⟩ := runFrom_recording (σ := Context × Replayer) (·.1)
      (fun c s => (c, s.2)) { guards := {} }
      (recordBridge file driver (c.procedure? driver (key file)) bridge frame) (c, r)
    rw [hrecord] at hstate
    have hkept := ((Recorder.recordBridge_growing file driver _ bridge frame _).growsGuards hrun).kept
    have hdata' : (u.1.guards.get g).data = data := by
      rw [show u = _ from hstate]
      rw [← hdata, ← GuardTable.get_of_prefix hkept hg]
    have hsame : u.2 = r := by rw [show u = _ from hstate]
    obtain ⟨c₁, r₁⟩ := u
    obtain rfl : r₁ = r := hsame
    dsimp only at h
    split at h
    · rw [runFrom_bind, runFrom_modify] at h
      dsimp only at h
      rw [runFrom_bind_eq_ok] at h
      obtain ⟨_, u', hcompile, h⟩ := h
      obtain ⟨w', -, rfl⟩ := inSession_eq_ok hcompile
      cases h
      exact .traced
    · exact continues_blackhole hvirtuals hpending hdata' h
  · exact continues_blackhole hvirtuals hpending hdata h

include hvirtuals hpending in
theorem continues_handleFail (hdescr : frame.descr = .guard g) (hkind : ¬ g.IsForced)
    (hg : g.id < c.guards.records.length) (hdata : (c.guards.get g).data = data)
    (h : runFrom ((hooks file).handleFail driver frame) (c, r) = (.ok exit, (c', r'))) :
    Continues r frame (data.numbering.map (data.meaning frame.values [])) exit r' := by
  rw [Hooks.handleFail_guard _ _ _ hdescr] at h
  cases hbusy : (c.guards.get g).busy with
  | true =>
    rw [Hooks.handleGuard_busy _ _ _ hkind hbusy] at h
    exact continues_blackhole hvirtuals hpending hdata h
  | false =>
    rw [Hooks.handleGuard_idle _ _ _ hkind hbusy] at h
    obtain ⟨counter, hcounter⟩ := mustCompile_eq c.countFailed driver g frame
    have hcounted : (c.countFailure driver g frame).2.guards = c.guards := by
      rw [Context.countFailure, ← Context.countFailed, hcounter]
      rfl
    dsimp only at h
    split at h
    · have htracing : ((c.countFailure driver g frame).2.startTracing g).guards =
          c.guards.startTracing g := congrArg (·.startTracing g) hcounted
      cases htrace : runFrom ((hooks file).trace driver g frame)
          ((c.countFailure driver g frame).2.startTracing g, r) with
      | mk answer u =>
        rw [htrace] at h
        cases h
        refine continues_trace hvirtuals hpending ?_ ?_ htrace
        · rw [htracing, GuardTable.startTracing, GuardTable.length_modify]
          exact hg
        · rw [htracing, data_startTracing, hdata]
    · refine continues_blackhole hvirtuals hpending ?_ h
      rw [← hdata, ← hcounted]
      rfl

end Plain

/--
A failure of a guard that may be traced from goes on with what the resume data says if it is
blackholed, and with the values of the frame if a bridge has been recorded for it; so it goes on in
the same way in both cases exactly if the slots mirror the frame. The heap is left alone.
-/
theorem failure_continues (hdescr : frame.descr = .guard g) (hkind : ¬ g.IsForced)
    (hg : g.id < c.guards.records.length) (hvirtuals : (c.guards.get g).data.virtuals = [])
    (hpending : (c.guards.get g).data.pending = [])
    (h : runFrom ((hooks file).handleFail driver frame) (c, r) = (.ok exit, (c', r'))) :
    let data := (c.guards.get g).data
    let decoded := (Reader.readFrame data frame.values (Reader.start data r.heap)).1
    Continues r frame decoded exit r' ∧
      (exit = .continueWith decoded ↔ r'.traced = r.traced ∨ data.Mirrors frame.values) := by
  intro data decoded
  have hdecoded : decoded = data.numbering.map (data.meaning frame.values []) :=
    congrArg Prod.fst (ResumeData.resume_start hvirtuals hpending frame.values r.heap)
  have hcontinues := continues_handleFail hvirtuals hpending hdescr hkind hg rfl h
  rw [← hdecoded] at hcontinues
  refine ⟨hcontinues, ?_⟩
  rw [ResumeData.mirrors_iff, ← hdecoded]
  cases hcontinues with
  | blackholed => simp
  | traced => simp [eq_comm]

/-- The second of the values that the guard hands over is a sum of constants. -/
def foldedSum : TraceFile where
  driver := { name := "d" }
  inputs := [⟨"i0", .int 1⟩]
  body := [
    { op := .intAdd, args := [.const (.int 1), .const (.int 2)], result := some "i1" },
    { op := .guardTrue, args := [.name "i0"], failArgs := ["i0", "i1"], guard := some "g" }]
  jump := [.name "i0"]
  bridges := [{ guard := "g", inputs := ["i5", "i6"], jump := some [.name "i5"] }]

def everySecond : Config := { traceEagerness := 2, counterBits := 1 }

/-- What is in the slot of the sum when the guard fails is arbitrary. -/
def foldedFrame (g : Guard) : DeadFrame := { descr := .guard g, values := [.int 0, .int 9] }

/-- The guard of the loop, with the state once the loop has been compiled. -/
def compiledSum? : Option (Guard × (Context × Replayer)) :=
  let loop := runFrom (Run.loop foldedSum foldedSum.jitDriver) (foldedSum.start everySecond .all)
  loop.1.toOption.bind fun unit => (Run.findGuard? loop.2.context unit 1).map fun g =>
    (g, loop.2.context, loop.2.interpreter)

private theorem not_isForced_of_plain {g : Guard} (h : g.kind = .plain) : ¬ g.IsForced := by
  rintro ⟨owner, howner⟩
  rw [h] at howner
  cases howner

/-- The first failure is blackholed, and goes on with the sum. -/
theorem failure_continues_foldedSum :
    ∃ g s, compiledSum? = some (g, s) ∧
      let data := (s.1.guards.get g).data
      let failed := runFrom ((hooks foldedSum).handleFail foldedSum.jitDriver (foldedFrame g)) s
      (¬ g.IsForced ∧ g.id < s.1.guards.records.length ∧ data.virtuals = [] ∧ data.pending = []) ∧
        failed.1.toOption = some (.continueWith [.int 0, .int 3]) ∧
        Continues s.2 (foldedFrame g) [.int 0, .int 3] (.continueWith [.int 0, .int 3]) failed.2.2 ∧
        (failed.2.2.traced = s.2.traced ∨ data.Mirrors (foldedFrame g).values) := by
  have hfacts : compiledSum?.any (fun (g, s) =>
      let data := (s.1.guards.get g).data
      let failed := runFrom ((hooks foldedSum).handleFail foldedSum.jitDriver (foldedFrame g)) s
      g.kind = .plain ∧ g.id < s.1.guards.records.length ∧ data.virtuals = [] ∧ data.pending = [] ∧
        data.numbering = [.box 0, .const 0] ∧ data.consts = [.int 3] ∧
        failed.1.toOption = some (.continueWith [.int 0, .int 3])) = true := by decide +kernel
  obtain ⟨⟨g, c, r⟩, hcompiled, hfacts⟩ := (Option.any_eq_true ..).mp hfacts
  obtain ⟨hkind, hg, hvirtuals, hpending, hnumbering, hconsts, hexit⟩ := of_decide_eq_true hfacts
  have hforced := not_isForced_of_plain hkind
  refine ⟨g, (c, r), hcompiled, ⟨hforced, hg, hvirtuals, hpending⟩, hexit, ?_⟩
  cases hfail : runFrom ((hooks foldedSum).handleFail foldedSum.jitDriver (foldedFrame g)) (c, r) with
  | mk answer s =>
    rw [hfail] at hexit
    cases answer with
    | error e => cases hexit
    | ok exit =>
      cases hexit
      have hdecoded : (Reader.readFrame (c.guards.get g).data (foldedFrame g).values
          (Reader.start (c.guards.get g).data r.heap)).1 = [.int 0, .int 3] := by
        have hread := ResumeData.resume_start hvirtuals hpending (foldedFrame g).values r.heap
        refine (congrArg Prod.fst hread).trans ?_
        rw [hnumbering]
        simp [ResumeData.meaning, foldedFrame, hconsts]
      obtain ⟨hcontinues, hsame⟩ := failure_continues rfl hforced hg hvirtuals hpending hfail
      rw [hdecoded] at hcontinues hsame
      exact ⟨hcontinues, hsame.mp rfl⟩

/-- The second failure is traced, and goes on with what has been left in the slot of the sum. -/
theorem failure_splits_foldedSum :
    ∃ g s, compiledSum? = some (g, s) ∧ ¬ g.IsForced ∧
      let fail (s : Context × Replayer) :=
        runFrom ((hooks foldedSum).handleFail foldedSum.jitDriver (foldedFrame g)) s
      let again := (fail s).2
      let data := (again.1.guards.get g).data
      data.virtuals = [] ∧ data.pending = [] ∧
        (Reader.readFrame data (foldedFrame g).values (Reader.start data again.2.heap)).1 =
          [.int 0, .int 3] ∧
        (fail s).1.toOption = some (.continueWith [.int 0, .int 3]) ∧
        (fail again).1.toOption = some (.continueWith [.int 0, .int 9]) := by
  have hfacts : compiledSum?.any (fun (g, s) =>
      let fail (s : Context × Replayer) :=
        runFrom ((hooks foldedSum).handleFail foldedSum.jitDriver (foldedFrame g)) s
      let again := (fail s).2
      let data := (again.1.guards.get g).data
      g.kind = .plain ∧ data.virtuals = [] ∧ data.pending = [] ∧
        (Reader.readFrame data (foldedFrame g).values (Reader.start data again.2.heap)).1 =
          [.int 0, .int 3] ∧
        (fail s).1.toOption = some (.continueWith [.int 0, .int 3]) ∧
        (fail again).1.toOption = some (.continueWith [.int 0, .int 9])) = true := by decide +kernel
  obtain ⟨⟨g, s⟩, hcompiled, hfacts⟩ := (Option.any_eq_true ..).mp hfacts
  obtain ⟨hkind, hfacts⟩ := of_decide_eq_true hfacts
  exact ⟨g, s, hcompiled, not_isForced_of_plain hkind, hfacts⟩

end Replayer

end HotLoop
