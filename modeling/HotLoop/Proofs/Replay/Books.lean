import HotLoop.Proofs.Replay.Linking
import Mathlib.Algebra.GroupWithZero.Nat

/-!
# The books of a replay

Every failure runs a bridge or is an exit from the code; every exit is blackholed or traced; every
bridge has a guard of its own; and of the units that have been made for loops and callbacks, those
are gone that have been counted as freed.
-/

namespace HotLoop

open Replay

section Bridged

variable {t t' : GuardTable} {g : Guard}

/-- The number of guards that have got a bridge. -/
def GuardTable.bridged (t : GuardTable) : Nat := t.records.countP fun r => 0 < r.bridges

namespace GuardTable

private def isBridged (t : GuardTable) (id : Nat) : Bool := 0 < (t.records[id]?.getD {}).bridges

private theorem bridged_eq_countP {n : Nat} (hn : t.records.length ≤ n) :
    t.bridged = (List.range n).countP t.isBridged := by
  obtain ⟨k, rfl⟩ := Nat.exists_eq_add_of_le hn
  have hrecords : t.records =
      (List.range t.records.length).map fun id => t.records[id]?.getD {} := by
    refine List.ext_getElem (by simp) fun i hi _ => ?_
    simp [List.getElem?_eq_getElem hi]
  have hbeyond : ((List.range k).map (t.records.length + ·)).countP t.isBridged = 0 := by
    refine List.countP_eq_zero.mpr fun id hid => ?_
    obtain ⟨i, -, rfl⟩ := List.mem_map.mp hid
    simp [isBridged]
  rw [List.range_add, List.countP_append, hbeyond, Nat.add_zero, bridged]
  conv => lhs; rw [hrecords]
  rw [List.countP_map]
  rfl

theorem bridged_eq_of_bridges (hlength : t.records.length ≤ t'.records.length)
    (h : ∀ g, (t'.get g).bridges = (t.get g).bridges) : t'.bridged = t.bridged := by
  rw [bridged_eq_countP (Nat.le_refl t'.records.length), bridged_eq_countP hlength]
  refine List.countP_congr fun id _ => ?_
  have hsame := h ⟨id, .label, .plain⟩
  simp only [get] at hsame
  rw [isBridged, isBridged, hsame]

private theorem countP_range_succ_of_or {p p' : Nat → Bool} {k n : Nat} (hk : p k = false)
    (hp : ∀ i, p' i = (p i || i == k)) :
    (List.range n).countP p' = (List.range n).countP p + if k < n then 1 else 0 := by
  induction n with
  | zero => simp
  | succ n ih =>
    rw [List.range_succ, List.countP_append, List.countP_append, ih, List.countP_singleton,
      List.countP_singleton, hp]
    by_cases hn : n = k
    · subst hn
      simp [hk]
    · have hlt : k < n + 1 ↔ k < n := by omega
      simp only [hlt, Nat.add_right_comm]
      simp [hn]

theorem bridged_succ (hg : g.id < t.records.length) (hnone : (t.get g).bridges = 0)
    (hlength : t.records.length ≤ t'.records.length)
    (h : ∀ g' : Guard, (t'.get g').bridges = (t.get g').bridges + if g'.id = g.id then 1 else 0) :
    t'.bridged = t.bridged + 1 := by
  rw [bridged_eq_countP (Nat.le_refl t'.records.length), bridged_eq_countP hlength]
  have hfirst : t.isBridged g.id = false := by
    simp only [get] at hnone
    simp [isBridged, hnone]
  rw [countP_range_succ_of_or hfirst fun id => ?_, if_pos (Nat.lt_of_lt_of_le hg hlength)]
  have hid := h ⟨id, .label, .plain⟩
  simp only [get] at hid
  rw [isBridged, isBridged, hid]
  by_cases heq : id = g.id
  · simp [heq]
  · simp [heq]

end GuardTable

end Bridged

section Exits

instance (g : Guard) : Decidable g.IsForced :=
  match h : g.kind with
  | .forced owner => isTrue ⟨owner, h⟩
  | .plain | .notInvalidated | .atPosition => isFalse fun ⟨_, hforced⟩ => by cases h.symm.trans hforced

def Event.isFail : Event → Bool
  | fail _ => true
  | _ => false

def Event.isCallback : Event → Bool
  | callback .. => true
  | _ => false

def Event.isCollect : Event → Bool
  | collect => true
  | _ => false

/-- The guard through which the code is left in an event: one that fails and has no bridge. -/
def Event.exit? (file : TraceFile) (unit : UnitHandle) (run : Run) : Event → Option Guard
  | fail failure =>
    ((file.guardPositions.get? failure.guard).bind (Run.findGuard? run.context unit)).filter fun g =>
      (run.context.guards.get g).bridges = 0
  | _ => none

/-- The guards through which the code is left in the course of the events, one after the other. -/
def TraceFile.exitsThrough (file : TraceFile) (unit : UnitHandle) : List Event → Run → List Guard
  | [], _ => []
  | event :: events, run =>
    (event.exit? file unit run).toList ++
      file.exitsThrough unit events (runFrom (event.perform file file.jitDriver unit) run).2

variable {file : TraceFile} {config : Config} {addresses : Nat → UInt64} {unit : UnitHandle}
  {first run : Run} {done : List Event} {event : Event}

theorem Event.exit?_eq_none (h : event.isFail = false) : event.exit? file unit run = none := by
  cases event with
  | fail failure => cases h
  | _ => rfl

namespace TraceFile

theorem exitsThrough_concat (hfirst : file.Reaches config addresses unit [] first)
    (h : file.Reaches config addresses unit done run) (event : Event) :
    file.exitsThrough unit (done ++ [event]) first =
      file.exitsThrough unit done first ++ (event.exit? file unit run).toList := by
  have hall (events : List Event) (start : Run) :
      file.exitsThrough unit (events ++ [event]) start = file.exitsThrough unit events start ++
        (event.exit? file unit (events.foldl
          (fun run e => (runFrom (e.perform file file.jitDriver unit) run).2) start)).toList := by
    induction events generalizing start with
    | nil => exact List.append_nil _
    | cons e events ih =>
      rw [List.cons_append, exitsThrough, ih, exitsThrough, List.append_assoc]
      rfl
  have hrun : done.foldl (fun run e => (runFrom (e.perform file file.jitDriver unit) run).2) first =
      run := by
    induction h with
    | loop opts hopts hloop => exact hfirst.unique (.loop opts hopts hloop)
    | event _ h hevent ih =>
      rw [List.foldl_append, ih]
      exact congrArg (·.2) hevent
  rw [hall, hrun]

end TraceFile

end Exits

namespace Context

section Balance

variable {loops callbacks : Nat} {exits : List Guard} {piece : Piece} {t : GuardTable}
  {c c' : Context}

/--
The counts of a context agree with what has happened to it: loops and callbacks have been compiled,
and there have been exits through some guards.
-/
structure Balanced (loops callbacks : Nat) (exits : List Guard) (c : Context) : Prop where
  handled : c.stats.ledger.blackholes + c.stats.ledger.traces = exits.length
  failures : c.stats.ledger.failures = exits.countP (¬ ·.IsForced)
  idle : ∀ g, (c.guards.get g).busy = false
  bridges_le : ∀ g, (c.guards.get g).bridges ≤ 1
  bridged : c.stats.ledger.bridges = c.guards.bridged
  traced : c.stats.ledger.bridges ≤ c.stats.ledger.traces
  attached : ∀ b ∈ c.backend.bridges, (c.guards.get b.guard).bridges = 1
  apart : (c.backend.bridges.map (·.guard.id)).Nodup
  loops : c.stats.ledger.loops = loops + c.stats.ledger.entries
  units : c.registry.size + c.stats.ledger.freed = c.stats.ledger.loops + callbacks

private theorem Idles.busy (h : Idles c c') (hc : ∀ g, (c.guards.get g).busy = false) (g : Guard) :
    (c'.guards.get g).busy = false := by
  cases hbusy : (c'.guards.get g).busy with
  | false => rfl
  | true => exact (h.guards.busy g hbusy).symm.trans (hc g)

theorem Balanced.idles (hc : Balanced loops callbacks exits c) (h : Idles c c') :
    Balanced loops callbacks exits c' where
  handled := by rw [h.ledger, hc.handled]
  failures := by rw [h.ledger, hc.failures]
  idle := h.busy hc.idle
  bridges_le g := by rw [h.guards.bridges]; exact hc.bridges_le g
  bridged := by
    rw [h.ledger, hc.bridged, GuardTable.bridged_eq_of_bridges h.guards.length_le h.guards.bridges]
  traced := by rw [h.ledger]; exact hc.traced
  attached b hb := by
    rw [h.code.bridges] at hb
    rw [h.guards.bridges, hc.attached b hb]
  apart := by rw [h.code.bridges]; exact hc.apart
  loops := by rw [h.ledger, hc.loops]
  units := by rw [h.ledger, Registry.size_eq_of_isAlive h.units.alive, hc.units]

private theorem Delivers.busy (h : Delivers piece t c c') (hc : ∀ g, (c.guards.get g).busy = false)
    (g : Guard) : (c'.guards.get g).busy = false := by
  rw [h.links.busy]
  cases hbusy : (t.get g).busy with
  | false => rfl
  | true => exact (h.grows.busy g hbusy).symm.trans (hc g)

private theorem Delivers.length_le (h : Delivers piece t c c') :
    c.guards.records.length ≤ c'.guards.records.length :=
  h.links.length ▸ h.grows.length_le

private theorem Delivers.bridges (h : Delivers piece t c c')
    (hold : ∀ g₀ ∈ piece.purpose.guard?, g₀.id < c.guards.records.length) (g : Guard) :
    (c'.guards.get g).bridges = (c.guards.get g).bridges +
      if piece.purpose.guard?.any (·.id == g.id) then 1 else 0 := by
  by_cases hlt : g.id < t.records.length
  · rw [h.links.bridges g hlt, h.grows.bridges]
  · have hle : t.records.length ≤ g.id := Nat.le_of_not_lt hlt
    have hle' : c.guards.records.length ≤ g.id := Nat.le_trans h.grows.length_le hle
    have hother : piece.purpose.guard?.any (·.id == g.id) = false := by
      cases hpurpose : piece.purpose.guard? with
      | none => rfl
      | some g₀ =>
        have := hold g₀ hpurpose
        simp only [Option.any_some, beq_eq_false_iff_ne]
        omega
    rw [GuardTable.get_of_length_le (h.links.length.symm ▸ hle), GuardTable.get_of_length_le hle',
      hother]
    rfl

theorem Balanced.ofUnit (hc : Balanced loops callbacks exits c) (h : Delivers piece t c c')
    (hpurpose : piece.purpose.guard? = none) :
    Balanced (loops + if piece.purpose = .loop then 1 else 0)
      (callbacks + if piece.purpose = .callback then 1 else 0) exits c' := by
  have henter (l : Ledger) (hl : l.loops = loops + l.entries) :
      let l' := piece.purpose.enter l
      (l'.blackholes, l'.traces, l'.failures, l'.bridges, l'.freed) =
        (l.blackholes, l.traces, l.failures, l.bridges, l.freed) ∧
      l'.loops = loops + (if piece.purpose = .loop then 1 else 0) + l'.entries ∧
      l'.loops + (if piece.purpose = .callback then 1 else 0) = l.loops + 1 := by
    cases hp : piece.purpose with
    | loop => exact ⟨rfl, by simp [Purpose.enter, hl]; omega, by simp [Purpose.enter]⟩
    | entry => exact ⟨rfl, by simp [Purpose.enter, hl]; omega, by simp [Purpose.enter]⟩
    | callback => exact ⟨rfl, by simp [Purpose.enter, hl], by simp [Purpose.enter]⟩
    | bridge g =>
      rw [hp] at hpurpose
      cases hpurpose
  obtain ⟨hkept, hloops, hmade⟩ := henter c.stats.ledger hc.loops
  simp only [Prod.mk.injEq] at hkept
  obtain ⟨hblackholes, htraces, hfailures, hbridges, hfreed⟩ := hkept
  have hsame (g : Guard) : (c'.guards.get g).bridges = (c.guards.get g).bridges := by
    rw [h.bridges (by simp [hpurpose]), hpurpose]
    rfl
  have hcode := h.code.bridges_eq hpurpose
  have hdead : c.registry.isAlive piece.home = false := by rw [h.home, hpurpose]; rfl
  refine ⟨?_, ?_, h.busy hc.idle, fun g => ?_, ?_, ?_, fun b hb => ?_, ?_, ?_, ?_⟩
  · rw [h.ledger, hblackholes, htraces, hc.handled]
  · rw [h.ledger, hfailures, hc.failures]
  · rw [hsame]
    exact hc.bridges_le g
  · rw [h.ledger, hbridges, hc.bridged, GuardTable.bridged_eq_of_bridges h.length_le hsame]
  · rw [h.ledger, hbridges, htraces]
    exact hc.traced
  · rw [hsame]
    exact hc.attached b (hcode ▸ hb)
  · rw [hcode]
    exact hc.apart
  · rw [h.ledger, hloops]
  · rw [h.ledger, hfreed, Registry.size_succ_of_isAlive hdead h.alive]
    have := hc.units
    omega

theorem Balanced.ofBridge {g : Guard} (hc : Balanced loops callbacks exits c)
    (htraced : c.stats.ledger.bridges < c.stats.ledger.traces)
    (hnone : (c.guards.get g).bridges = 0) (hfor : piece.IsFor (.guard g) (c.guards.get g).loop)
    (h : Delivers piece t c c') : Balanced loops callbacks exits c' := by
  obtain ⟨hpurpose, hloop⟩ := hfor
  have hlt : g.id < c.guards.records.length := by
    by_contra hge
    rw [GuardTable.get_of_length_le (Nat.le_of_not_lt hge)] at hloop
    cases hloop
  have hget (g' : Guard) (hid : g'.id = g.id) : c.guards.get g' = c.guards.get g := by
    rw [GuardTable.get, GuardTable.get, hid]
  have hbridges (g' : Guard) : (c'.guards.get g').bridges = (c.guards.get g').bridges +
      if g'.id = g.id then 1 else 0 := by
    rw [h.bridges (by simpa [hpurpose, Purpose.guard?] using hlt), hpurpose]
    simp only [Purpose.guard?, Option.any_some, beq_iff_eq]
    exact congrArg _ (if_congr eq_comm rfl rfl)
  obtain ⟨b, hguard, -, hcode⟩ := h.code.bridges_append hpurpose
  have hledger : c'.stats.ledger = { c.stats.ledger with bridges := c.stats.ledger.bridges + 1 } :=
    h.ledger.trans (congrArg (Purpose.enter c.stats.ledger) hpurpose)
  have halive : c.registry.isAlive piece.home = true := by
    rw [h.home, hpurpose]
    rfl
  refine ⟨?_, ?_, h.busy hc.idle, fun g' => ?_, ?_, ?_, fun b' hb' => ?_, ?_, ?_, ?_⟩
  · rw [hledger]
    exact hc.handled
  · rw [hledger]
    exact hc.failures
  · rw [hbridges]
    split
    · rw [hget g' ‹_›, hnone]
    · exact hc.bridges_le g'
  · rw [hledger, GuardTable.bridged_succ hlt hnone h.length_le hbridges, ← hc.bridged]
  · rw [hledger]
    exact htraced
  · rw [hbridges]
    rw [hcode] at hb'
    rcases List.mem_append.mp hb' with hb' | hb'
    · have hone := hc.attached b' hb'
      rw [if_neg fun hid => ?_, hone]
      rw [hget _ hid, hnone] at hone
      cases hone
    · rw [List.mem_singleton.mp hb', hguard, hnone, if_pos rfl]
  · rw [hcode, List.map_append]
    refine List.nodup_append.mpr ⟨hc.apart, List.nodup_singleton _, fun i hi j hj hij => ?_⟩
    obtain ⟨b', hb', rfl⟩ := List.mem_map.mp hi
    rw [List.map_singleton, List.mem_singleton, hguard] at hj
    have hone := hc.attached b' hb'
    rw [hget b'.guard (hij.trans hj), hnone] at hone
    cases hone
  · rw [hledger]
    exact hc.loops
  · have hsame (u : UnitHandle) : c'.registry.isAlive u = c.registry.isAlive u := by
      rw [h.alive]
      by_cases hu : u = piece.home
      · rw [hu, halive, Bool.true_or]
      · rw [beq_eq_false_iff_ne.mpr hu, Bool.or_false]
    rw [hledger, Registry.size_eq_of_isAlive hsame]
    exact hc.units

private theorem Balanced.forced {g : Guard} (hc : Balanced loops callbacks exits c)
    (hkind : g.IsForced) : Balanced loops callbacks (exits ++ [g]) c.countBlackhole :=
  { hc with
    handled := by
      rw [List.length_append, ← hc.handled]
      exact Nat.succ_add ..
    failures := by
      rw [List.countP_append, ← hc.failures]
      simp [hkind]
      rfl }

private theorem Balanced.blackholed {g : Guard} (hc : Balanced loops callbacks exits c)
    (hkind : ¬ g.IsForced) :
    Balanced loops callbacks (exits ++ [g]) c.countFailed.countBlackhole :=
  { hc with
    handled := by
      rw [List.length_append, ← hc.handled]
      exact Nat.succ_add ..
    failures := by
      rw [List.countP_append, ← hc.failures]
      simp [hkind]
      rfl }

private theorem Balanced.tracing {g : Guard} (hc : Balanced loops callbacks exits c)
    (hkind : ¬ g.IsForced) : Balanced loops callbacks (exits ++ [g]) c.countFailed.countTrace :=
  { hc with
    handled := by
      rw [List.length_append, ← hc.handled]
      rfl
    failures := by
      rw [List.countP_append, ← hc.failures]
      simp [hkind]
      rfl
    traced := Nat.le_succ_of_le hc.traced }

/-- The code is left through a guard without a bridge. -/
theorem Balanced.fails {file : TraceFile} {driver : Driver} {g : Guard} {frame : DeadFrame}
    (hc : Balanced loops callbacks exits c) (hnone : (c.guards.get g).bridges = 0)
    (h : Replayer.Fails file driver g frame c c') : Balanced loops callbacks (exits ++ [g]) c' := by
  cases h with
  | forced hkind hidles => exact (hc.forced hkind).idles hidles
  | busy hbusy _ =>
    rw [hc.idle g] at hbusy
    cases hbusy
  | blackholed hkind hidles => exact (hc.blackholed hkind).idles hidles
  | traced hkind hidles => exact (hc.tracing hkind).idles hidles
  | bridged hkind t piece _ hfor hdelivers =>
    exact (hc.tracing hkind).ofBridge (Nat.lt_succ_of_le hc.traced) hnone hfor hdelivers

theorem Balanced.nextGeneration (hc : Balanced loops callbacks exits c) :
    Balanced loops callbacks exits c.nextGeneration.2 where
  handled := hc.handled
  failures := hc.failures
  idle := hc.idle
  bridges_le := hc.bridges_le
  bridged := hc.bridged
  traced := hc.traced
  attached b hb := hc.attached b ((bridges_foldl_free ..).subset hb)
  apart := hc.apart.sublist ((bridges_foldl_free ..).map _)
  loops := hc.loops
  units := by
    have hfreed (u : UnitHandle) (hu : u ∈ c.units.freed) : c.registry.isAlive u = true :=
      Registry.isAlive_iff.mpr (Registry.mem_liveHandles.mp (List.mem_filter.mp hu).1)
    have hsize := Registry.size_foldl_drop c.units.nodup_freed hfreed
    have hunits := hc.units
    change (c.units.freed.foldl Registry.drop c.registry).size +
      (c.stats.ledger.freed + c.units.freed.length) = c.stats.ledger.loops + callbacks
    omega

theorem Balanced.invalidate (hc : Balanced loops callbacks exits c) (field : Nat) :
    Balanced loops callbacks exits (c.invalidate field).2 :=
  { hc with
    units := by
      have hsize := Registry.size_eq_of_isAlive (alike_invalidate c field).alive
      have hunits := hc.units
      rw [← hsize] at hunits
      exact hunits }

end Balance

end Context

structure Run.Balanced (exits : List Guard) (done : List Event) (run : Run) : Prop where
  context : run.context.Balanced 1 (done.countP (·.isCallback)) exits
  failures : run.exits.length + run.bridgeRuns = done.countP (·.isFail)
  exits : run.exits.length = exits.length

section Reaching

variable {file : TraceFile} {driver : Driver} {config : Config} {addresses : Nat → UInt64}
  {unit : UnitHandle} {first run run' : Run} {done : List Event} {event : Event}
  {exits : List Guard}

private theorem Run.Balanced.quiet (hrun : run.Balanced exits done) (hfail : event.isFail = false)
    (hcallback : event.isCallback = false) (hexits : run'.exits = run.exits)
    (hruns : run'.bridgeRuns = run.bridgeRuns)
    (hcontext : run'.context.Balanced 1 (done.countP (·.isCallback)) exits) :
    run'.Balanced exits (done ++ [event]) := by
  refine ⟨?_, ?_, by rw [hexits, hrun.exits]⟩
  · rw [List.countP_append, List.countP_singleton, hcallback]
    exact hcontext
  · rw [List.countP_append, List.countP_singleton, hfail, hexits, hruns, hrun.failures]
    rfl

theorem Run.Balanced.perform (hrun : run.Balanced exits done) (hdriver : driver.virtualizable = none)
    (hc : run.context.registry.WellFormed)
    (h : runFrom (event.perform file driver unit) run = (.ok (), run')) :
    run'.Balanced (exits ++ (event.exit? file unit run).toList) (done ++ [event]) := by
  cases event with
  | enter spec =>
    obtain ⟨henters, hrun'⟩ := Run.enter_eq_ok hdriver hc h
    rw [Event.exit?_eq_none rfl, Option.toList_none, List.append_nil]
    refine hrun.quiet rfl rfl (by rw [hrun']) (by rw [hrun']) ?_
    cases henters with
    | idle hidles => exact hrun.context.idles hidles
    | delivered t piece hpurpose _ hdelivers =>
      have hcontext := hrun.context.ofUnit hdelivers (by rw [hpurpose]; rfl)
      rw [hpurpose] at hcontext
      exact hcontext
  | seek failure =>
    rw [Event.exit?_eq_none rfl, Option.toList_none, List.append_nil, Run.seek_eq_ok h]
    exact hrun.quiet rfl rfl rfl rfl hrun.context
  | fail failure =>
    have hcallbacks : (done ++ [Event.fail failure]).countP (·.isCallback) =
        done.countP (·.isCallback) := by
      rw [List.countP_append]
      rfl
    have hfailures : (done ++ [Event.fail failure]).countP (·.isFail) =
        done.countP (·.isFail) + 1 := by
      rw [List.countP_append]
      rfl
    cases Run.fail_eq_ok hdriver hc h with
    | ran position g hposition hfind hbridge hrun' =>
      have hexit : Event.exit? file unit run (.fail failure) = none := by
        simp only [Event.exit?, hposition, Option.bind_some, hfind]
        exact Option.filter_some_neg (by simpa using Nat.ne_of_gt hbridge)
      rw [hexit, Option.toList_none, List.append_nil, hrun']
      refine ⟨hcallbacks ▸ hrun.context, ?_, hrun.exits⟩
      rw [hfailures, ← hrun.failures]
      rfl
    | left position g exit hposition hfind hbridge hfails hrun' =>
      have hexit : Event.exit? file unit run (.fail failure) = some g := by
        simp only [Event.exit?, hposition, Option.bind_some, hfind]
        exact Option.filter_some_pos (by simpa using hbridge)
      rw [hexit, hrun', Option.toList_some]
      refine ⟨hcallbacks ▸ hrun.context.fails hbridge hfails, ?_, ?_⟩
      · rw [hfailures, ← hrun.failures]
        exact Nat.succ_add ..
      · rw [List.length_append, ← hrun.exits]
        rfl
  | write field =>
    cases h
    rw [Event.exit?_eq_none rfl, Option.toList_none, List.append_nil]
    exact hrun.quiet rfl rfl rfl rfl (hrun.context.invalidate field)
  | callback index spec =>
    obtain ⟨⟨home, ops, -, hdelivers⟩, hrun'⟩ := Run.callback_eq_ok hc h
    rw [Event.exit?_eq_none rfl, Option.toList_none, List.append_nil, hrun']
    refine ⟨?_, ?_, hrun.exits⟩
    · rw [List.countP_append]
      exact hrun.context.ofUnit hdelivers rfl
    · rw [List.countP_append]
      exact hrun.failures
  | collect =>
    rw [Event.exit?_eq_none rfl, Option.toList_none, List.append_nil, Run.collect_eq_ok h]
    exact hrun.quiet rfl rfl rfl rfl hrun.context.nextGeneration

namespace TraceFile

private theorem balanced_start (file : TraceFile) (config : Config) (opts : OptSet)
    (addresses : Nat → UInt64) : (file.start config opts addresses).context.Balanced 0 0 [] where
  handled := rfl
  failures := rfl
  idle _ := rfl
  bridges_le _ := Nat.zero_le _
  bridged := rfl
  traced := Nat.le_refl _
  attached _ hb := absurd hb List.not_mem_nil
  apart := List.nodup_nil
  loops := rfl
  units := rfl

theorem Reaches.balanced (hfirst : file.Reaches config addresses unit [] first)
    (h : file.Reaches config addresses unit done run) :
    run.Balanced (file.exitsThrough unit done first) done := by
  induction h with
  | loop opts hopts hloop =>
    obtain ⟨hloops, hrun⟩ := Run.loop_eq_ok rfl Registry.wellFormed_empty hloop
    rw [hrun]
    refine ⟨?_, rfl, rfl⟩
    cases hloops with
    | intro args r w entry t deps code _ _ _ hdelivers =>
      exact (file.balanced_start config opts addresses).ofUnit hdelivers rfl
  | event _ h hevent ih =>
    rw [exitsThrough_concat hfirst h]
    exact ih.perform rfl h.wellFormed hevent

theorem Reaches.generation (h : file.Reaches config addresses unit done run) :
    run.context.collector.current = 1 + done.countP (·.isCollect) := by
  induction h with
  | loop opts hopts hloop =>
    exact (Run.loop_eq_ok rfl Registry.wellFormed_empty hloop).1.moves.generation
  | @event _ event _ _ _ h hevent ih =>
    rw [List.countP_append, List.countP_singleton, ← Nat.add_assoc, ← ih]
    cases hcollect : event.isCollect with
    | true =>
      obtain rfl : event = .collect := by
        cases event <;> first | rfl | cases hcollect
      rw [Run.collect_eq_ok hevent]
      rfl
    | false =>
      have hmoves := (Event.moves rfl h.wellFormed hevent).resolve_right fun hlast => by
        rw [hlast.1] at hcollect
        cases hcollect
      exact hmoves.generation

/-- Where labels do not count, the failures count as often as they happen. -/
private theorem countP_failures {p : Event → Bool} (hseek : ∀ f, p (.seek f) = false)
    (failures : List FailureSpec) :
    (failures.flatMap fun failure => Event.seek failure ::
      List.replicate failure.times (.fail failure)).countP p =
      (failures.map fun failure => if p (.fail failure) then failure.times else 0).sum := by
  induction failures with
  | nil => rfl
  | cons failure failures ih =>
    rw [List.flatMap_cons, List.countP_append, ih, List.map_cons, List.sum_cons]
    simp [hseek, List.countP_replicate]

theorem countP_isFail_events (file : TraceFile) :
    file.events.countP (·.isFail) = (file.failures.map (·.times)).sum := by
  have hfailures := countP_failures (p := (·.isFail)) (fun _ => rfl) file.failures
  simp only [events, List.countP_append, hfailures, List.countP_map, List.countP_replicate]
  simp [Event.isFail, Function.comp_def]

theorem countP_isCollect_events (file : TraceFile) :
    file.events.countP (·.isCollect) = file.generations := by
  have hfailures := countP_failures (p := (·.isCollect)) (fun _ => rfl) file.failures
  simp only [events, List.countP_append, hfailures, List.countP_map, List.countP_replicate]
  simp [Event.isCollect, Function.comp_def]

private theorem countP_isCallback_events (file : TraceFile) :
    file.events.countP (·.isCallback) = file.callbacks.length := by
  have hfailures := countP_failures (p := (·.isCallback)) (fun _ => rfl) file.failures
  simp only [events, List.countP_append, hfailures, List.countP_map, List.countP_replicate]
  simp [Event.isCallback, Function.comp_def]

/--
The books of a replay that reports something balance: failures are exits or runs of bridges, exits
are blackholed or traced, and they count as failures unless they are forced; every guard has got at
most one bridge, and so many guards have got one as bridges have been compiled; and there is a loop,
one for every entry from the interpreter, and a unit for each of them and for every callback, freed
or alive.
-/
theorem books_balance {report : Report} (h : file.run config addresses = .ok report) :
    ∃ unit first last, file.Reaches config addresses unit [] first ∧
      file.Reaches config addresses unit file.events last ∧ report = last.report ∧
      report.exits.length + report.bridgeRuns = (file.failures.map (·.times)).sum ∧
      report.stats.blackholes + report.stats.bridgeTraces = report.exits.length ∧
      report.exits.length = (file.exitsThrough unit file.events first).length ∧
      report.stats.guardFailures = (file.exitsThrough unit file.events first).countP (¬ ·.IsForced) ∧
      (∀ g, (last.context.guards.get g).bridges ≤ 1) ∧
      (∀ done run, file.Reaches config addresses unit done run →
        (run.context.backend.bridges.map (·.guard.id)).Nodup ∧
        ∀ b ∈ run.context.backend.bridges, (run.context.guards.get b.guard).bridges = 1) ∧
      report.stats.bridgesCompiled = last.context.guards.bridged ∧
      report.stats.bridgesCompiled ≤ report.stats.bridgeTraces ∧
      report.stats.loopsCompiled = 1 + report.stats.entryBridges ∧
      report.liveUnits + report.stats.freedLoops =
        report.stats.loopsCompiled + file.callbacks.length := by
  obtain ⟨unit, last, hlast, rfl⟩ := exists_reaches h
  obtain ⟨first, hfirst⟩ := hlast.earlier (List.nil_prefix ..)
  have hbooks := hfirst.balanced hlast
  have hcontext := hbooks.context
  have hexits : last.report.exits.length = last.exits.length := List.length_reverse
  refine ⟨unit, first, last, hfirst, hlast, rfl, ?_, ?_, ?_, hcontext.failures, hcontext.bridges_le,
    fun done run hrun => ?_, hcontext.bridged, hcontext.traced, hcontext.loops, ?_⟩
  · rw [hexits, ← countP_isFail_events]
    exact hbooks.failures
  · rw [hexits, hbooks.exits]
    exact hcontext.handled
  · rw [hexits, hbooks.exits]
  · have hthere := (hfirst.balanced hrun).context
    exact ⟨hthere.apart, hthere.attached⟩
  · rw [← countP_isCallback_events]
    exact hcontext.units

/-- A guard fails twice: once it is traced from, and then the bridge runs. -/
theorem books_balance_countdown :
    let config : Config := { traceEagerness := 1, counterBits := 1 }
    let addresses := Guard.inOrder
    ∃ report, countdown.run config addresses = .ok report ∧
      report.bridgeRuns = 1 ∧ report.exits.length = 1 ∧
      report.stats.blackholes + report.stats.bridgeTraces = 1 ∧
      report.stats.loopsCompiled = 1 + report.stats.entryBridges ∧
      report.liveUnits + report.stats.freedLoops = report.stats.loopsCompiled := by
  intro config addresses
  have hcounts : (countdown.run config addresses).toOption.map (·.bridgeRuns) = some 1 := by
    decide +kernel
  cases hrun : countdown.run config addresses with
  | error e =>
    rw [hrun] at hcounts
    cases hcounts
  | ok report =>
    rw [hrun] at hcounts
    obtain ⟨_, _, _, -, -, -, htotal, hhandled, -, -, -, -, -, -, hloops, hunits⟩ := books_balance hrun
    have hruns : report.bridgeRuns = 1 := Option.some.inj hcounts
    have hexits : report.exits.length = 1 := by
      rw [hruns] at htotal
      exact Nat.succ.inj htotal
    exact ⟨report, rfl, hruns, hexits, hhandled.trans hexits, hloops, hunits⟩

end TraceFile

end Reaching

end HotLoop
