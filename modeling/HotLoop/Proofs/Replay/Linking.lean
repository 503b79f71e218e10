import HotLoop.Proofs.Replay.Events
import HotLoop.Proofs.Runs.Actions
import Mathlib.Data.List.Flatten

/-!
# The units of guards

No two guards in the code that a replay submits share a descriptor, and every descriptor knows the
unit whose code the guard is in. New code has only new descriptors, and a link is never changed
again.
-/

namespace HotLoop

open Replay

/-- The guards in all code of a backend. -/
def Backend.guards (b : Backend) : List Guard :=
  (b.loops.flatMap fun l => guardsIn l.operations) ++
    b.bridges.flatMap fun l => guardsIn l.operations

theorem Piece.SentTo.guards_perm {piece : Piece} {b b' : Backend} (h : piece.SentTo b b') :
    b'.guards.Perm (b.guards ++ guardsIn piece.ops) := by
  unfold SentTo at h
  split at h
  · obtain ⟨l, -, hops, hloops, hbridges⟩ := h
    rw [Backend.guards, Backend.guards, hloops, hbridges, List.flatMap_append, List.append_assoc,
      List.append_assoc, List.flatMap_singleton, hops]
    exact List.Perm.append_left _ List.perm_append_comm
  · obtain ⟨l, -, -, hops, hloops, hbridges⟩ := h
    rw [Backend.guards, Backend.guards, hloops, hbridges, List.flatMap_append, List.append_assoc,
      List.flatMap_singleton, hops]

/--
No two guards in the code of the backend share a descriptor, and in the table each is linked to the
unit that its code belongs to. A bridge belongs to the unit of the guard that it is attached to.
-/
structure Backend.GuardsLinked (b : Backend) (t : GuardTable) : Prop where
  nodup : (b.guards.map (·.id)).Nodup
  loops : ∀ l ∈ b.loops, ∀ g ∈ guardsIn l.operations, (t.get g).loop = some l.unit
  bridges : ∀ l ∈ b.bridges, (t.get l.guard).loop = some l.home ∧
    ∀ g ∈ guardsIn l.operations, (t.get g).loop = some l.home

namespace Context

variable {c c' d : Context} {g : Guard} {unit : UnitHandle}

/-- What a part of a replay has done to a context, unless it has gone on to the next generation. -/
inductive Moves (c c' : Context) : Prop where
  | idle (stats : Stats) (h : Idles { c with stats } c')
  | delivers (stats : Stats) (piece : Piece) (t : GuardTable) (h : Delivers piece t { c with stats } c')
      (hnew : NewGuards c.guards.records.length t piece.ops)
      (hbridge : ∀ g, piece.purpose = .bridge g → (c.guards.get g).loop = some piece.home)
  | writes (field : Nat) (h : c' = (c.invalidate field).2)

/-- A write to a field invalidates units but takes none away. -/
theorem alike_invalidate (c : Context) (field : Nat) :
    c.registry.Alike (c.invalidate field).2.registry := by
  have hfold (hs : List UnitHandle) (r : Registry) :
      r.Alike (hs.foldl (fun r h => r.modify h fun u => { u with invalidated := true }) r) := by
    induction hs generalizing r with
    | nil => exact .refl r
    | cons h hs ih => exact (Registry.Alike.modify r h _).trans (ih _)
  exact hfold _ _

theorem Moves.wellFormed (h : Moves c c') (hc : c.registry.WellFormed) :
    c'.registry.WellFormed := by
  cases h with
  | idle stats h => exact h.units.wellFormed hc
  | delivers stats piece t h => exact h.wellFormed hc
  | writes field h => exact h ▸ (alike_invalidate c field).wellFormed hc

theorem Moves.position (h : Moves c c') (hg : g.id < c.guards.records.length) :
    g.id < c'.guards.records.length ∧
      (c'.guards.get g).data.position = (c.guards.get g).data.position := by
  cases h with
  | idle stats h => exact ⟨Nat.lt_of_lt_of_le hg h.guards.length_le, h.guards.position g hg⟩
  | delivers stats piece t h =>
    refine ⟨?_, (h.links.position g).trans (h.grows.position g hg)⟩
    rw [h.links.length]
    exact Nat.lt_of_lt_of_le hg h.grows.length_le
  | writes field h => exact h ▸ ⟨hg, rfl⟩

theorem Moves.isAlive (h : Moves c c') (hunit : c.registry.isAlive unit = true) :
    c'.registry.isAlive unit = true := by
  cases h with
  | idle stats h => exact (h.units.alive unit).trans hunit
  | delivers stats piece t h =>
    have hunit' : ({ c with stats } : Context).registry.isAlive unit = true := hunit
    rw [h.alive, hunit', Bool.true_or]
  | writes field h => exact h ▸ ((alike_invalidate c field).alive unit).trans hunit

theorem Moves.generation (h : Moves c c') : c'.collector.current = c.collector.current := by
  cases h with
  | idle stats h => exact h.generation
  | delivers stats piece t h => exact h.generation
  | writes field h => exact h ▸ rfl

/-- No other code is sent for a unit while it is alive, except for bridges. -/
theorem Moves.loopFor?_eq (h : Moves c c') (hunit : c.registry.isAlive unit = true) :
    c'.backend.loopFor? unit = c.backend.loopFor? unit := by
  cases h with
  | idle stats h => rw [Backend.loopFor?, h.code.loops, Backend.loopFor?]
  | delivers stats piece t h =>
    have hcode := h.code
    have hhome := h.home
    unfold Piece.SentTo at hcode
    split at hcode
    · rename_i hnone
      obtain ⟨l, hl, -, hloops, -⟩ := hcode
      rw [hnone] at hhome
      have hne : l.unit ≠ unit := by
        rintro rfl
        rw [← hl] at hhome
        have hunit' : ({ c with stats } : Context).registry.isAlive l.unit = true := hunit
        rw [hunit'] at hhome
        cases hhome
      rw [Backend.loopFor?, hloops, List.reverse_append, List.reverse_singleton,
        List.singleton_append, List.find?_cons_of_neg (by simpa using hne)]
      rfl
    · obtain ⟨l, -, -, -, hloops, -⟩ := hcode
      rw [Backend.loopFor?, hloops]
      rfl
  | writes field h => exact h ▸ rfl

theorem Moves.loop_eq (h : Moves c c') (hg : (c.guards.get g).loop = some unit) :
    (c'.guards.get g).loop = some unit := by
  cases h with
  | idle stats h => exact (h.guards.loop g).trans hg
  | delivers stats piece t h hnew =>
    have hlt : g.id < c.guards.records.length := by
      by_contra hge
      rw [GuardTable.get_of_length_le (Nat.le_of_not_lt hge)] at hg
      cases hg
    have hno : ¬ NamesGuard piece.ops g := fun hnames => by
      have := hnew.new g hnames
      omega
    rw [h.links.others g hno, h.grows.loop g]
    exact hg
  | writes field h => exact h ▸ hg

theorem guardsLinked_lt (hc : c.backend.GuardsLinked c.guards) (hg : g ∈ c.backend.guards) :
    g.id < c.guards.records.length := by
  have hloop : ∃ unit, (c.guards.get g).loop = some unit := by
    rcases List.mem_append.mp hg with hg | hg
    · obtain ⟨l, hl, hg⟩ := List.mem_flatMap.mp hg
      exact ⟨_, hc.loops l hl g hg⟩
    · obtain ⟨b, hb, hg⟩ := List.mem_flatMap.mp hg
      exact ⟨_, (hc.bridges b hb).2 g hg⟩
  obtain ⟨unit, hunit⟩ := hloop
  by_contra hge
  rw [GuardTable.get_of_length_le (Nat.le_of_not_lt hge)] at hunit
  cases hunit

theorem guardsLinked_nextGeneration (hc : c.backend.GuardsLinked c.guards) :
    c.nextGeneration.2.backend.GuardsLinked c.nextGeneration.2.guards := by
  have hbridges := bridges_foldl_free c.backend c.units.freed
  have hloops : c.nextGeneration.2.backend.loops = c.backend.loops := (foldl_free ..).2.1
  refine ⟨?_, hloops ▸ hc.loops, fun b hb => hc.bridges b (hbridges.subset hb)⟩
  refine hc.nodup.sublist (List.Sublist.map _ ?_)
  rw [Backend.guards, hloops]
  exact (hbridges.flatMap _).append_left _

theorem Moves.guardsLinked (h : Moves c c') (hc : c.backend.GuardsLinked c.guards) :
    c'.backend.GuardsLinked c'.guards := by
  cases h with
  | idle stats h =>
    have hguards : c'.backend.guards = c.backend.guards := by
      rw [Backend.guards, h.code.loops, h.code.bridges]
      rfl
    have hmoves : Moves c c' := .idle stats h
    refine ⟨hguards ▸ hc.nodup, fun l hl g hg => ?_, fun b hb => ?_⟩
    · rw [h.code.loops] at hl
      exact hmoves.loop_eq (hc.loops l hl g hg)
    · rw [h.code.bridges] at hb
      obtain ⟨hguard, hguards⟩ := hc.bridges b hb
      exact ⟨hmoves.loop_eq hguard, fun g hg => hmoves.loop_eq (hguards g hg)⟩
  | delivers stats piece t h hnew hbridge =>
    have hmoves : Moves c c' := .delivers stats piece t h hnew hbridge
    have hlinked (g : Guard) (hg : g ∈ guardsIn piece.ops) :
        (c'.guards.get g).loop = some piece.home :=
      h.links.loop g (hnew.lt g hg) (namesGuard_of_mem hg)
    have hcode := h.code
    refine ⟨?_, fun l hl g hg => ?_, fun b hb => ?_⟩
    · rw [(hcode.guards_perm.map _).nodup_iff, List.map_append]
      refine List.nodup_append.mpr ⟨hc.nodup, hnew.nodup, fun i hi j hj hij => ?_⟩
      obtain ⟨g, hg, rfl⟩ := List.mem_map.mp hi
      obtain ⟨g', hg', rfl⟩ := List.mem_map.mp hj
      have hlt := guardsLinked_lt hc hg
      have hle := hnew.new g' (namesGuard_of_mem hg')
      have hij : g.id = g'.id := hij
      omega
    · unfold Piece.SentTo at hcode
      split at hcode
      · obtain ⟨l', hunit, hops, hloops, -⟩ := hcode
        rw [hloops] at hl
        rcases List.mem_append.mp hl with hl | hl
        · exact hmoves.loop_eq (hc.loops l hl g hg)
        · rw [List.mem_singleton.mp hl] at hg ⊢
          rw [hunit]
          exact hlinked g (hops ▸ hg)
      · obtain ⟨l', -, -, -, hloops, -⟩ := hcode
        rw [hloops] at hl
        exact hmoves.loop_eq (hc.loops l hl g hg)
    · have hold (hb : b ∈ c.backend.bridges) : (c'.guards.get b.guard).loop = some b.home ∧
          ∀ g ∈ guardsIn b.operations, (c'.guards.get g).loop = some b.home := by
        obtain ⟨hguard, hguards⟩ := hc.bridges b hb
        exact ⟨hmoves.loop_eq hguard, fun g hg => hmoves.loop_eq (hguards g hg)⟩
      unfold Piece.SentTo at hcode
      split at hcode
      · obtain ⟨l', -, -, -, hbridges⟩ := hcode
        exact hold (hbridges ▸ hb)
      · rename_i g hpurpose
        obtain ⟨l', hguard, hhome, hops, -, hbridges⟩ := hcode
        rw [hbridges] at hb
        rcases List.mem_append.mp hb with hb | hb
        · exact hold hb
        · rw [List.mem_singleton.mp hb, hguard, hhome, hops]
          refine ⟨hmoves.loop_eq (hbridge g ?_), hlinked⟩
          cases hp : piece.purpose <;> rw [hp] at hpurpose <;> cases hpurpose
          rfl
  | writes field h => exact h ▸ ⟨hc.nodup, hc.loops, hc.bridges⟩

end Context

variable {file : TraceFile} {driver : Driver} {config : Config} {addresses : Nat → UInt64}
  {unit : UnitHandle} {run run' : Run} {c c' : Context} {done front : List Event} {event : Event}

namespace Replayer

theorem Enters.moves (h : Enters c c') : Context.Moves c c' := by
  cases h with
  | idle hidles => exact .idle c.stats hidles
  | delivered t piece hpurpose hnew hdelivers =>
    refine .delivers c.stats piece t hdelivers hnew fun g hg => ?_
    rw [hpurpose] at hg
    cases hg

theorem Fails.moves {g : Guard} {frame : DeadFrame} (h : Fails file driver g frame c c') :
    Context.Moves c c' := by
  cases h with
  | forced _ hidles => exact .idle _ hidles
  | busy _ hidles => exact .idle _ hidles
  | blackholed _ hidles => exact .idle _ hidles
  | traced _ hidles => exact .idle _ hidles
  | bridged _ t piece hcode hfor hdelivers =>
    obtain ⟨counter, hcounter⟩ := mustCompile_eq c.countFailed driver g frame
    have hlength : ((c.countFailure driver g frame).2.startTracing g).guards.records.length =
        c.guards.records.length := by
      rw [Context.countFailure, ← Context.countFailed, hcounter]
      exact GuardTable.length_modify ..
    have hnew := hcode.newGuards
    rw [hlength] at hnew
    refine .delivers _ piece _ hdelivers ⟨hnew.nodup, fun g hg => ?_, hnew.new⟩ fun g' hg' => ?_
    · rw [GuardTable.doneTracing, GuardTable.length_modify]
      exact hnew.lt g hg
    · cases hfor.1.symm.trans hg'
      exact hfor.2

end Replayer

theorem Run.Loops.moves (h : Loops file driver c c' unit) : Context.Moves c c' := by
  cases h with
  | intro args r w entry t deps code hrecords hgrows hcode hdelivers =>
    obtain ⟨ops, hoperations, hregisters, -⟩ := Recorder.recordLoop_registers hrecords.recorded
    refine .delivers c.stats _ t hdelivers (hcode.newGuards ?_) fun g hg => by cases hg
    rw [hoperations]
    exact (Workbench.OwnsNew.mk hregisters.own hregisters.named hregisters.grows.length_le).grows hgrows

/-- Every event of a replay is a move, or it goes on to the next generation. -/
theorem Event.moves (hdriver : driver.virtualizable = none) (hc : run.context.registry.WellFormed)
    (h : runFrom (event.perform file driver unit) run = (.ok (), run')) :
    Context.Moves run.context run'.context ∨
      event = .collect ∧ run'.context = run.context.nextGeneration.2 := by
  cases event with
  | collect => exact .inr ⟨rfl, by rw [Run.collect_eq_ok h]⟩
  | enter spec => exact .inl (Run.enter_eq_ok hdriver hc h).1.moves
  | seek failure =>
    left
    rw [Run.seek_eq_ok h]
    exact .idle run.context.stats (.refl _)
  | fail failure =>
    left
    cases Run.fail_eq_ok hdriver hc h with
    | ran position g _ _ _ hrun' =>
      rw [hrun']
      exact .idle run.context.stats (.refl _)
    | left position g exit _ _ _ hfails _ => exact hfails.moves
  | write field =>
    cases h
    exact .inl (.writes field rfl)
  | callback index spec =>
    left
    obtain ⟨⟨home, ops, hnone, hdelivers⟩, -⟩ := Run.callback_eq_ok hc h
    have hnil : guardsIn ops = [] := by
      refine List.eq_nil_iff_forall_not_mem.mpr fun g hg => ?_
      exact not_namesGuard hnone (namesGuard_of_mem hg)
    refine .delivers run.context.stats _ _ hdelivers ⟨?_, ?_, ?_⟩ fun g hg => by cases hg
    · dsimp only
      rw [hnil]
      exact List.nodup_nil
    · dsimp only
      rw [hnil]
      exact fun g hg => absurd hg List.not_mem_nil
    · exact fun g hg => absurd hg (not_namesGuard hnone)

namespace TraceFile

private theorem Reaches.invariant {P : Context → Prop}
    (hstart : ∀ opts, config.opts = .ok opts → P (file.start config opts addresses).context)
    (hmoves : ∀ c c', c.registry.WellFormed → Context.Moves c c' → P c → P c')
    (hcollect : ∀ c, P c → P c.nextGeneration.2) (h : file.Reaches config addresses unit done run) :
    run.context.registry.WellFormed ∧ P run.context := by
  induction h with
  | loop opts hopts hloop =>
    have hc : (file.start config opts addresses).context.registry.WellFormed :=
      Registry.wellFormed_empty
    have hmoved := (Run.loop_eq_ok rfl hc hloop).1.moves
    exact ⟨hmoved.wellFormed hc, hmoves _ _ hc hmoved (hstart opts hopts)⟩
  | event _ _ hevent ih =>
    obtain ⟨hc, hp⟩ := ih
    rcases Event.moves rfl hc hevent with hmoved | ⟨-, hcollected⟩
    · exact ⟨hmoved.wellFormed hc, hmoves _ _ hc hmoved hp⟩
    · rw [hcollected]
      exact ⟨hc.foldl_drop _, hcollect _ hp⟩

theorem Reaches.wellFormed (h : file.Reaches config addresses unit done run) :
    run.context.registry.WellFormed :=
  (h.invariant (P := fun _ => True) (fun _ _ => trivial) (fun _ _ _ _ _ => trivial)
    fun _ _ => trivial).1

theorem Reaches.guardsLinked (h : file.Reaches config addresses unit done run) :
    run.context.backend.GuardsLinked run.context.guards :=
  (h.invariant (P := fun c => c.backend.GuardsLinked c.guards)
    (fun _ _ => ⟨List.nodup_nil, fun _ hl => absurd hl List.not_mem_nil,
      fun _ hb => absurd hb List.not_mem_nil⟩)
    (fun _ _ _ hmoved hc => hmoved.guardsLinked hc) fun _ => Context.guardsLinked_nextGeneration).2

theorem Reaches.loop_eq {before now : Run} {g : Guard} {home : UnitHandle}
    (hbefore : file.Reaches config addresses unit front before)
    (hnow : file.Reaches config addresses unit done now)
    (hfront : front <+: done) (hloop : (before.context.guards.get g).loop = some home) :
    (now.context.guards.get g).loop = some home := by
  induction hnow with
  | loop opts hopts hstart =>
    cases List.prefix_nil.mp hfront
    cases hbefore.unique (.loop opts hopts hstart)
    exact hloop
  | event hdone h hevent ih =>
    rcases List.prefix_concat_iff.mp hfront with rfl | hfront
    · cases hbefore.unique (.event hdone h hevent)
      exact hloop
    · rcases Event.moves rfl h.wellFormed hevent with hmoved | ⟨-, hcollected⟩
      · exact hmoved.loop_eq (ih hfront)
      · rw [hcollected]
        exact ih hfront

/--
At every point of a replay behind its loop, no two guards in all code that has been submitted until
then share a descriptor, and each is linked to the unit whose code it is in, or, in a bridge, to the
unit of the guard that the bridge is attached to. They remain so linked when the code is gone, as
bridges are in the generations at the end.
-/
theorem guards_linked {report : Report} (h : file.run config addresses = .ok report) :
    ∃ unit, (∀ done, done <+: file.events → ∃ run, file.Reaches config addresses unit done run) ∧
      ∀ front done before now, file.Reaches config addresses unit front before →
        file.Reaches config addresses unit done now → front <+: done →
        before.context.backend.GuardsLinked now.context.guards := by
  obtain ⟨unit, last, hlast, -⟩ := exists_reaches h
  refine ⟨unit, fun done hdone => hlast.earlier hdone,
    fun front done before now hbefore hnow hfront => ?_⟩
  have hlinked := hbefore.guardsLinked
  refine ⟨hlinked.nodup, fun l hl g hg => ?_, fun b hb => ⟨?_, fun g hg => ?_⟩⟩
  · exact hbefore.loop_eq hnow hfront (hlinked.loops l hl g hg)
  · exact hbefore.loop_eq hnow hfront (hlinked.bridges b hb).1
  · exact hbefore.loop_eq hnow hfront ((hlinked.bridges b hb).2 g hg)

/-- The peeled loop of a countdown and the bridge behind it. -/
theorem guards_linked_countdown :
    let config : Config := { traceEagerness := 1, counterBits := 1 }
    let addresses := Guard.inOrder
    ∃ report unit last, countdown.run config addresses = .ok report ∧
      report.stats.loopsCompiled = 1 ∧ report.stats.bridgesCompiled = 1 ∧
      countdown.Reaches config addresses unit countdown.events last ∧
      last.context.backend.GuardsLinked last.context.guards := by
  intro config addresses
  have hcounts : (countdown.run config addresses).toOption.map
      (fun report => (report.stats.loopsCompiled, report.stats.bridgesCompiled)) = some (1, 1) := by
    decide +kernel
  cases hrun : countdown.run config addresses with
  | error e =>
    rw [hrun] at hcounts
    cases hcounts
  | ok report =>
    rw [hrun] at hcounts
    simp only [Except.toOption, Option.map_some, Option.some.injEq, Prod.mk.injEq] at hcounts
    obtain ⟨unit, hreaches, hlinked⟩ := guards_linked hrun
    obtain ⟨last, hlast⟩ := hreaches countdown.events List.prefix_rfl
    exact ⟨report, unit, last, rfl, hcounts.1, hcounts.2, hlast,
      hlinked _ _ last last hlast hlast List.prefix_rfl⟩

end TraceFile

end HotLoop
