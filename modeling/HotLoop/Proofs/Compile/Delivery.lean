import HotLoop.Proofs.Compile.Attempts
import HotLoop.Proofs.Walk.Issuing

/-!
# Delivered code

What a compile call that succeeds has done to its context. Either it has delivered nothing, and
units, code, dependencies and links are as they were; or it has delivered one piece of code, whose
guards know their unit now, whose dependencies are registered under that unit, and which has been
counted once.
-/

namespace HotLoop

/-- The counts of a context that tell what has been delivered and how failures have gone. -/
structure Ledger where
  loops : Nat
  bridges : Nat
  entries : Nat
  failures : Nat
  traces : Nat
  blackholes : Nat
  freed : Nat
  deriving DecidableEq, Repr

def Stats.ledger (s : Stats) : Ledger where
  loops := s.loopsCompiled
  bridges := s.bridgesCompiled
  entries := s.entryBridges
  failures := s.guardFailures
  traces := s.bridgeTraces
  blackholes := s.blackholes
  freed := s.freedLoops

inductive Purpose where
  | loop
  | entry
  | callback
  | bridge (guard : Guard)
  deriving DecidableEq, Repr

def Purpose.guard? : Purpose → Option Guard
  | bridge g => some g
  | _ => none

/-- The ledger once code for a purpose has been delivered. -/
def Purpose.enter (l : Ledger) : Purpose → Ledger
  | loop => { l with loops := l.loops + 1 }
  | entry => { l with loops := l.loops + 1, entries := l.entries + 1 }
  | callback => l
  | bridge _ => { l with bridges := l.bridges + 1 }

/-- The table of guards with one bridge more at the guard that code is attached to. -/
def Purpose.attach (t : GuardTable) (purpose : Purpose) : GuardTable :=
  match purpose.guard? with
  | some g => t.modify g fun r => { r with bridges := r.bridges + 1 }
  | none => t

namespace Purpose

variable {purpose : Purpose} {t : GuardTable} {g : Guard}

theorem length_attach (t : GuardTable) (purpose : Purpose) :
    (purpose.attach t).records.length = t.records.length := by
  unfold attach
  split
  · exact GuardTable.length_modify ..
  · rfl

theorem get_attach (t : GuardTable) (purpose : Purpose) (g : Guard) :
    ∃ bridges, (purpose.attach t).get g = { t.get g with bridges } ∧
      (g.id < t.records.length → bridges = (t.get g).bridges +
        if purpose.guard?.any (·.id == g.id) then 1 else 0) := by
  unfold attach
  cases purpose.guard? with
  | none => exact ⟨_, rfl, fun _ => rfl⟩
  | some g' =>
    dsimp only
    rw [GuardTable.get_modify]
    have hsame (h : g.id = g'.id) : t.get g' = t.get g := by
      rw [GuardTable.get, GuardTable.get, h]
    by_cases hid : g.id = g'.id
    · by_cases hlt : g'.id < t.records.length
      · exact ⟨(t.get g).bridges + 1, by rw [if_pos ⟨hid, hlt⟩, hsame hid], by simp [hid]⟩
      · exact ⟨(t.get g).bridges, by rw [if_neg fun h => hlt h.2], fun h => absurd (hid ▸ h) hlt⟩
    · have hid' : ¬ g'.id = g.id := fun h => hid h.symm
      exact ⟨(t.get g).bridges, by rw [if_neg fun h => hid h.1], fun _ => by simp [hid']⟩

end Purpose

/-- A piece of code as it is delivered: for the unit `home`, which relies on the fields `deps`. -/
structure Piece where
  purpose : Purpose
  home : UnitHandle
  ops : List Operation
  deps : FieldSet
  deriving Repr

/-- The table `t'` is `t` with the guards of a piece linked to its unit, and one bridge more. -/
structure Piece.Links (piece : Piece) (t t' : GuardTable) : Prop where
  length : t'.records.length = t.records.length
  loop : ∀ g, g.id < t.records.length → NamesGuard piece.ops g →
    (t'.get g).loop = some piece.home
  others : ∀ g, ¬ NamesGuard piece.ops g → (t'.get g).loop = (t.get g).loop
  bridges : ∀ g : Guard, g.id < t.records.length → (t'.get g).bridges = (t.get g).bridges +
    if piece.purpose.guard?.any (·.id == g.id) then 1 else 0
  busy : ∀ g, (t'.get g).busy = (t.get g).busy
  position : ∀ g, (t'.get g).data.position = (t.get g).data.position

/-- The backend `b'` is `b` with a piece of code more. -/
def Piece.SentTo (piece : Piece) (b b' : Backend) : Prop :=
  match piece.purpose.guard? with
  | none => ∃ l : CompiledLoop, l.unit = piece.home ∧ l.operations = piece.ops ∧
      b'.loops = b.loops ++ [l] ∧ b'.bridges = b.bridges
  | some g => ∃ l : CompiledBridge, l.guard = g ∧ l.home = piece.home ∧ l.operations = piece.ops ∧
      b'.loops = b.loops ∧ b'.bridges = b.bridges ++ [l]

/-- Code that is attached to no guard leaves the bridges alone. -/
theorem Piece.SentTo.bridges_eq {piece : Piece} {b b' : Backend} (h : piece.SentTo b b')
    (hnone : piece.purpose.guard? = none) : b'.bridges = b.bridges := by
  unfold SentTo at h
  rw [hnone] at h
  exact h.choose_spec.2.2.2

theorem Piece.SentTo.bridges_append {piece : Piece} {b b' : Backend} {g : Guard}
    (h : piece.SentTo b b') (hpurpose : piece.purpose = .bridge g) :
    ∃ l : CompiledBridge, l.guard = g ∧ l.operations = piece.ops ∧ b'.bridges = b.bridges ++ [l] := by
  unfold SentTo at h
  rw [hpurpose] at h
  obtain ⟨l, hguard, -, hops, -, hbridges⟩ := h
  exact ⟨l, hguard, hops, hbridges⟩

/-- The piece is a bridge in the unit `home`, or an entry from the interpreter. -/
def Piece.IsFor (piece : Piece) (resumeKey : ResumeKey) (home : Option UnitHandle) : Prop :=
  match resumeKey with
  | .guard g => piece.purpose = .bridge g ∧ home = some piece.home
  | .interpreter _ => piece.purpose = .entry

structure Registry.Alike (r r' : Registry) : Prop where
  wellFormed : r.WellFormed → r'.WellFormed
  alive : ∀ h, r'.isAlive h = r.isAlive h

namespace Registry.Alike

variable {r r' r'' : Registry}

theorem refl (r : Registry) : Alike r r := ⟨id, fun _ => rfl⟩

theorem trans (h : Alike r r') (h' : Alike r' r'') : Alike r r'' :=
  ⟨fun hr => h'.wellFormed (h.wellFormed hr), fun u => (h'.alive u).trans (h.alive u)⟩

theorem modify (r : Registry) (unit : UnitHandle) (f : CompiledUnit → CompiledUnit) :
    Alike r (r.modify unit f) := by
  refine ⟨fun hr => hr.modify, fun h => ?_⟩
  rw [isAlive, get?_modify, isAlive]
  split
  · rename_i heq
    rw [heq, Option.isSome_map]
  · rfl

theorem keep (collector : Collector) (r : Registry) (unit : UnitHandle) :
    Alike r (collector.keep r unit).2 := by
  unfold Collector.keep
  split
  · exact .refl r
  · split
    · exact .refl r
    · exact .modify ..

end Registry.Alike

namespace Context

/-- Nothing has been delivered between `c` and `c'`, and no unit has been made or lost. -/
structure Idles (c c' : Context) : Prop where
  units : c.registry.Alike c'.registry
  code : c.backend.SameCode c'.backend
  quasiImmut : c'.quasiImmut = c.quasiImmut
  guards : c.guards.Grows c'.guards
  ledger : c'.stats.ledger = c.stats.ledger
  generation : c'.collector.current = c.collector.current

/--
Exactly one piece of code has been delivered between `c` and `c'`, and `t` was the table of guards
when it was placed.
-/
structure Delivers (piece : Piece) (t : GuardTable) (c c' : Context) : Prop where
  wellFormed : c.registry.WellFormed → c'.registry.WellFormed
  home : c.registry.isAlive piece.home = piece.purpose.guard?.isSome
  alive : ∀ h, c'.registry.isAlive h = (c.registry.isAlive h || h == piece.home)
  code : piece.SentTo c.backend c'.backend
  freed : c'.backend.freed = c.backend.freed
  quasiImmut : c'.quasiImmut = piece.deps.foldl (·.depend · piece.home) c.quasiImmut
  grows : c.guards.Grows t
  links : piece.Links t c'.guards
  ledger : c'.stats.ledger = piece.purpose.enter c.stats.ledger
  generation : c'.collector.current = c.collector.current

variable {c c' d : Context} {piece : Piece} {t : GuardTable}

theorem Idles.refl (c : Context) : Idles c c :=
  ⟨.refl _, .refl _, rfl, .refl _, rfl, rfl⟩

theorem Idles.trans (h : Idles c c') (h' : Idles c' d) : Idles c d where
  units := h.units.trans h'.units
  code := h.code.trans h'.code
  quasiImmut := h'.quasiImmut.trans h.quasiImmut
  guards := h.guards.trans h'.guards
  ledger := h'.ledger.trans h.ledger
  generation := h'.generation.trans h.generation

/--
A piece of code has been placed between `c` and `c'`: it is with the backend and has been counted,
but it has not been recorded with its unit. Before that the table of guards was `t`.
-/
structure Places (piece : Piece) (t : GuardTable) (c c' : Context) : Prop where
  wellFormed : c.registry.WellFormed → c'.registry.WellFormed
  alive : ∀ h, c'.registry.isAlive h = (c.registry.isAlive h || h == piece.home)
  code : piece.SentTo c.backend c'.backend
  freed : c'.backend.freed = c.backend.freed
  quasiImmut : c'.quasiImmut = c.quasiImmut
  grows : c.guards.Grows t
  attach : c'.guards = piece.purpose.attach t
  ledger : c'.stats.ledger = piece.purpose.enter c.stats.ledger
  generation : c'.collector.current = c.collector.current

theorem Idles.places (h : Idles c c') (h' : Places piece t c' d) : Places piece t c d where
  wellFormed hc := h'.wellFormed (h.units.wellFormed hc)
  alive u := by rw [h'.alive, h.units.alive]
  code := by
    have hcode := h'.code
    unfold Piece.SentTo at hcode ⊢
    rwa [h.code.loops, h.code.bridges] at hcode
  freed := h'.freed.trans h.code.freed
  quasiImmut := h'.quasiImmut.trans h.quasiImmut
  grows := h.guards.trans h'.grows
  attach := h'.attach
  ledger := by rw [h'.ledger, h.ledger]
  generation := h'.generation.trans h.generation

/-- Units may change otherwise before the piece is recorded. -/
theorem Places.then (h : Places piece t c c') (hregistry : c'.registry.Alike d.registry)
    (hbackend : d.backend = c'.backend) (hfields : d.quasiImmut = c'.quasiImmut)
    (hguards : d.guards = c'.guards) (hledger : d.stats.ledger = c'.stats.ledger)
    (hgeneration : d.collector.current = c'.collector.current) : Places piece t c d where
  wellFormed hc := hregistry.wellFormed (h.wellFormed hc)
  alive u := (hregistry.alive u).trans (h.alive u)
  code := hbackend ▸ h.code
  freed := hbackend ▸ h.freed
  quasiImmut := hfields.trans h.quasiImmut
  grows := h.grows
  attach := hguards.trans h.attach
  ledger := hledger.trans h.ledger
  generation := hgeneration.trans h.generation

theorem Places.ofNew {driver : Driver} (hc : c.registry.WellFormed)
    (hidles : Idles (c.makeUnit driver).2 c') (h : Places piece t c' d)
    (hhome : piece.home = (c.makeUnit driver).1) :
    Places piece t c d ∧ c.registry.isAlive piece.home = false := by
  have hmake (u : UnitHandle) : (c.makeUnit driver).2.registry.isAlive u =
      (c.registry.isAlive u || u == piece.home) := by
    rw [hhome]
    have hget : (c.registry.make driver.id).2.get? u = _ := hc.get?_make u
    change ((c.registry.make driver.id).2.get? u).isSome = _
    rw [hget, Registry.isAlive]
    by_cases hu : u = (c.registry.make driver.id).1
    · rw [if_pos hu]
      simp [hu, makeUnit]
    · rw [if_neg hu]
      simp [hu, makeUnit]
  have hplaces := hidles.places h
  refine ⟨{ hplaces with
    wellFormed := fun hc => hplaces.wellFormed hc.make
    alive := fun u => ?_ }, ?_⟩
  · rw [hplaces.alive, hmake, Bool.or_assoc, Bool.or_self]
  · rw [hhome]
    exact Option.isSome_eq_false_iff.mpr (Option.isNone_iff_eq_none.mpr hc.get?_make_fst)

theorem Idles.delivers (h : Idles c c') (h' : Delivers piece t c' d) : Delivers piece t c d where
  wellFormed hc := h'.wellFormed (h.units.wellFormed hc)
  home := (h.units.alive _).symm.trans h'.home
  alive u := by rw [h'.alive, h.units.alive]
  code := by
    have hcode := h'.code
    unfold Piece.SentTo at hcode ⊢
    rwa [h.code.loops, h.code.bridges] at hcode
  freed := h'.freed.trans h.code.freed
  quasiImmut := by rw [h'.quasiImmut, h.quasiImmut]
  grows := h.guards.trans h'.grows
  links := h'.links
  ledger := by rw [h'.ledger, h.ledger]
  generation := h'.generation.trans h.generation

end Context

theorem descr_of_guard? {op : Operation} {g : Guard} (h : op.guard? = some g) :
    op.descr = some (.guard g) := by
  obtain ⟨d, hd, hg⟩ := Option.bind_eq_some_iff.mp h
  rw [hd]
  unfold Descr.guard? at hg
  split at hg
  · cases hg
    rfl
  · cases hg

namespace Submission

variable {s s' : Submission} {home : UnitHandle}

/-- What an operation in the code of `home` does to the table of guards. -/
private def link (home : UnitHandle) (t : GuardTable) (op : Operation) : GuardTable :=
  match op.guard? with
  | some g => t.modify g fun r => { r with loop := some home }
  | none => t

private theorem recordOperation_eq (home : UnitHandle) (c : Context) (op : Operation) :
    ∃ registry, c.registry.Alike registry ∧
      recordOperation home c op = { c with registry, guards := link home c.guards op } := by
  have hlink (h : ∀ g, op.descr ≠ some (.guard g)) : link home c.guards op = c.guards := by
    rw [link]
    cases hg : op.guard? with
    | none => rfl
    | some g => exact absurd (descr_of_guard? hg) (h g)
  unfold recordOperation
  split
  · rename_i g hdescr
    refine ⟨c.registry, .refl _, ?_⟩
    rw [link, Operation.guard?, hdescr]
    rfl
  · rename_i target hdescr
    rw [hlink (by simp [hdescr])]
    split
    · exact ⟨c.registry, .refl _, rfl⟩
    · exact ⟨_, .modify .., rfl⟩
  · rename_i e hdescr
    rw [hlink (by simp [hdescr])]
    split
    · split
      · exact ⟨c.registry, .refl _, rfl⟩
      · exact ⟨_, .modify .., rfl⟩
    · exact ⟨c.registry, .refl _, rfl⟩
  · rename_i hguard _ _
    rw [hlink (by simpa using hguard)]
    exact ⟨c.registry, .refl _, rfl⟩

private theorem recordOperations_eq (home : UnitHandle) (c : Context) (ops : List Operation) :
    ∃ registry, c.registry.Alike registry ∧ ops.foldl (recordOperation home) c =
      { c with registry, guards := ops.foldl (link home) c.guards } := by
  induction ops generalizing c with
  | nil => exact ⟨c.registry, .refl _, rfl⟩
  | cons op ops ih =>
    obtain ⟨registry, halike, heq⟩ := recordOperation_eq home c op
    obtain ⟨registry', halike', heq'⟩ := ih (recordOperation home c op)
    rw [heq] at halike'
    refine ⟨registry', halike.trans halike', ?_⟩
    rw [List.foldl_cons, heq', heq]
    rfl

private theorem length_link (home : UnitHandle) (t : GuardTable) (op : Operation) :
    (link home t op).records.length = t.records.length := by
  unfold link
  split
  · exact GuardTable.length_modify ..
  · rfl

private theorem get_link (home : UnitHandle) (t : GuardTable) (op : Operation) (g : Guard) :
    (NamesGuard [op] g → g.id < t.records.length →
      (link home t op).get g = { t.get g with loop := some home }) ∧
    (¬ NamesGuard [op] g → (link home t op).get g = t.get g) ∧
    ∃ loop, (link home t op).get g = { t.get g with loop } := by
  unfold link
  cases hop : op.guard? with
  | none => exact ⟨fun h => by simp [NamesGuard, hop] at h, fun _ => rfl, _, rfl⟩
  | some g' =>
    have hsame (h : g.id = g'.id) : t.get g' = t.get g := by
      rw [GuardTable.get, GuardTable.get, h]
    dsimp only
    rw [GuardTable.get_modify]
    refine ⟨fun hnames hlt => ?_, fun hno => ?_, ?_⟩
    · have hid : g'.id = g.id := by simpa [NamesGuard, hop] using hnames
      rw [if_pos ⟨hid.symm, hid ▸ hlt⟩, hsame hid.symm]
    · rw [if_neg fun h => hno (by simpa [NamesGuard, hop] using h.1.symm)]
    · split
      · rename_i h
        exact ⟨some home, by rw [hsame h.1]⟩
      · exact ⟨_, rfl⟩

private theorem get_links (home : UnitHandle) (ops : List Operation) (t : GuardTable) (g : Guard) :
    (NamesGuard ops g → g.id < t.records.length →
      ((ops.foldl (link home) t).get g).loop = some home) ∧
    (¬ NamesGuard ops g → (ops.foldl (link home) t).get g = t.get g) ∧
    ∃ loop, (ops.foldl (link home) t).get g = { t.get g with loop } := by
  induction ops generalizing t with
  | nil => exact ⟨by simp [NamesGuard], fun _ => rfl, _, rfl⟩
  | cons op ops ih =>
    obtain ⟨hyes, hno, loop, hloop⟩ := get_link home t op g
    obtain ⟨hyes', hno', loop', hloop'⟩ := ih (link home t op)
    rw [length_link] at hyes'
    rw [List.foldl_cons]
    have hcons : NamesGuard (op :: ops) g ↔ NamesGuard [op] g ∨ NamesGuard ops g := by
      simp [NamesGuard]
    refine ⟨fun hnames hlt => ?_, fun hnot => ?_, loop', by rw [hloop', hloop]⟩
    · by_cases hops : NamesGuard ops g
      · exact hyes' hops hlt
      · rw [hno' hops, hyes ((hcons.mp hnames).resolve_right hops) hlt]
    · rw [hno' fun h => hnot (hcons.mpr (.inr h)), hno fun h => hnot (hcons.mpr (.inl h))]

private theorem length_links (home : UnitHandle) (ops : List Operation) (t : GuardTable) :
    (ops.foldl (link home) t).records.length = t.records.length := by
  induction ops generalizing t with
  | nil => rfl
  | cons op ops ih => rw [List.foldl_cons, ih, length_link]

theorem runFrom_record (hhome : s.trace.home = some home) :
    ∃ registry guards trace, runFrom record s = (.ok (), {
      context := { s.context with
        registry
        guards
        quasiImmut := s.trace.deps.foldl (·.depend · home) s.context.quasiImmut }
      trace }) ∧ s.context.registry.Alike registry ∧
      ∀ purpose, purpose.guard? = none →
        Piece.Links ⟨purpose, home, s.trace.operations, s.trace.deps⟩ s.context.guards guards := by
  obtain ⟨registry, halike, heq⟩ := recordOperations_eq home s.context s.trace.operations
  have hlinks := get_links home s.trace.operations s.context.guards
  simp only [record, runFrom_bind, runFrom_get, hhome, runFrom_set, heq]
  refine ⟨registry, _, _, rfl, halike, fun purpose hpurpose => ⟨length_links .., ?_, ?_, ?_, ?_, ?_⟩⟩
  · exact fun g hlt hnames => (hlinks g).1 hnames hlt
  · exact fun g hno => by rw [(hlinks g).2.1 hno]
  · intro g _
    obtain ⟨loop, hloop⟩ := (hlinks g).2.2
    rw [hloop, hpurpose]
    rfl
  · intro g
    obtain ⟨loop, hloop⟩ := (hlinks g).2.2
    rw [hloop]
  · intro g
    obtain ⟨loop, hloop⟩ := (hlinks g).2.2
    rw [hloop]

theorem record_delivers {c : Context} {piece : Piece} {t : GuardTable} {answer : Except Stop Unit}
    (h : Context.Places piece t c s.context) (hhome : s.trace.home = some piece.home)
    (hops : s.trace.operations = piece.ops) (hdeps : s.trace.deps = piece.deps)
    (hunit : c.registry.isAlive piece.home = piece.purpose.guard?.isSome)
    (hrun : runFrom record s = (answer, s')) :
    answer = .ok () ∧ Context.Delivers piece t c s'.context := by
  obtain ⟨registry, guards, trace, heq, halike, hlinks⟩ := runFrom_record hhome
  cases heq.symm.trans hrun
  have hlinked := hlinks .loop rfl
  have hlength := Purpose.length_attach t piece.purpose
  refine ⟨rfl, fun hc => halike.wellFormed (h.wellFormed hc), hunit,
    fun u => (halike.alive u).trans (h.alive u), h.code, h.freed, ?_, h.grows, ?_, h.ledger,
    h.generation⟩
  · rw [hdeps, h.quasiImmut]
  · rw [h.attach, hops, hdeps] at hlinked
    refine ⟨hlinked.length.trans hlength, fun g hlt => hlinked.loop g (hlength.symm ▸ hlt),
      fun g hno => ?_, fun g hlt => ?_, fun g => ?_, fun g => ?_⟩
    · obtain ⟨bridges, hget, -⟩ := Purpose.get_attach t piece.purpose g
      rw [hlinked.others g hno, hget]
    · obtain ⟨bridges, hget, hbridges⟩ := Purpose.get_attach t piece.purpose g
      rw [hlinked.bridges g (hlength.symm ▸ hlt), hget]
      exact hbridges hlt
    · obtain ⟨bridges, hget, -⟩ := Purpose.get_attach t piece.purpose g
      rw [hlinked.busy, hget]
    · obtain ⟨bridges, hget, -⟩ := Purpose.get_attach t piece.purpose g
      rw [hlinked.position, hget]

section Sending

variable {driver : Driver} {inputs : List InputArg} {key : Option GreenKey} {kind : String}
  {guard : Guard}

/-- The loop has been sent, and its unit has been stamped and numbered. -/
structure SendsLoop (driver : Driver) (inputs : List InputArg) (s s' : Submission)
    (loop : CompiledLoop) : Prop where
  home : s.trace.home = some loop.unit ∧ s.context.registry.isAlive loop.unit = true
  loaded : ∃ trace, s.trace.forgetForwarding.loadVirtualizable driver
    (virtualizableAddress driver inputs) = .ok trace ∧ loop.operations = trace.operations ∧
      s'.trace = { trace with number := s'.trace.number }
  units : s.context.registry.Alike s'.context.registry
  loops : s'.context.backend.loops = s.context.backend.loops ++ [loop]
  bridges : s'.context.backend.bridges = s.context.backend.bridges
  freed : s'.context.backend.freed = s.context.backend.freed
  quasiImmut : s'.context.quasiImmut = s.context.quasiImmut
  guards : s'.context.guards = s.context.guards
  ledger : s'.context.stats.ledger = Purpose.loop.enter s.context.stats.ledger
  generation : s'.context.collector.current = s.context.collector.current

theorem SendsLoop.places {loop : CompiledLoop} {purpose : Purpose} {c : Context}
    (h : SendsLoop driver inputs s s' loop) (hpurpose : purpose.guard? = none) (deps : FieldSet)
    (hregistry : c.registry = s'.context.registry) (hbackend : c.backend = s'.context.backend)
    (hfields : c.quasiImmut = s'.context.quasiImmut) (hguards : c.guards = s'.context.guards)
    (hledger : c.stats.ledger = purpose.enter s.context.stats.ledger)
    (hgeneration : c.collector.current = s'.context.collector.current) :
    Context.Places ⟨purpose, loop.unit, loop.operations, deps⟩ s.context.guards s.context c where
  wellFormed hc := by
    rw [hregistry]
    exact h.units.wellFormed hc
  alive u := by
    rw [hregistry, h.units.alive]
    by_cases hu : u = loop.unit
    · simp [hu, h.home.2]
    · simp [hu]
  code := by
    simp only [Piece.SentTo, hpurpose, hbackend]
    exact ⟨loop, rfl, rfl, h.loops, h.bridges⟩
  freed := by rw [hbackend, h.freed]
  quasiImmut := hfields.trans h.quasiImmut
  grows := .refl _
  attach := by rw [hguards, h.guards, Purpose.attach, hpurpose]
  ledger := hledger
  generation := hgeneration.trans h.generation

theorem sendLoop_eq_ok (h : runFrom (sendLoop key driver kind inputs) s = (.ok (), s')) :
    ∃ loop, SendsLoop driver inputs s s' loop := by
  simp only [sendLoop, runFrom_bind, runFrom_modifyTrace, runFrom_get, runFrom_ofFault] at h
  cases hload : s.trace.forgetForwarding.loadVirtualizable driver
      (virtualizableAddress driver inputs) with
  | error f =>
    rw [hload] at h
    cases h
  | ok trace =>
    have htrace := (Trace.loadVirtualizable_eq_ok hload).1.1
    rw [Trace.home_forgetForwarding] at htrace
    rw [hload] at h
    dsimp only at h
    split at h
    · rename_i unit hfilter
      obtain ⟨hhome, halive⟩ := Option.filter_eq_some_iff.mp hfilter
      simp only [runFrom_bind, runFrom_get, runFrom_set] at h
      split at h
      · simp only [runFrom_bind, runFrom_throw] at h
        cases h
      · simp only [runFrom_bind, runFrom_callBackend, runFrom_modifyContext, Context.takeNumber,
          Context.modifyUnit] at h
        cases hcompile : s.context.backend.compileLoop driver.id unit (loopName driver key)
            trace.inputs trace.operations with
        | mk answer backend =>
          rw [hcompile] at h
          cases answer with
          | error e => cases h
          | ok code =>
            obtain ⟨hloops, hbridges, hfreed⟩ := Backend.compileLoop_eq_ok hcompile
            cases h
            refine ⟨_, ⟨htrace ▸ hhome, halive⟩, ⟨trace, hload, rfl, rfl⟩, ?_, hloops, hbridges,
              hfreed, rfl, rfl, rfl, (Units.current_keep (u := ⟨_, _⟩)).1⟩
            exact ((Registry.Alike.modify ..).trans (.modify ..)).trans (.keep ..)
    · cases h

structure SendsBridge (s s' : Submission) (bridge : CompiledBridge) : Prop where
  trace : s'.trace = s.trace.forgetForwarding
  operations : bridge.operations = s.trace.forgetForwarding.operations
  context : ∃ backend stats, s'.context = { s.context with backend, stats } ∧
    backend.loops = s.context.backend.loops ∧
    backend.bridges = s.context.backend.bridges ++ [bridge] ∧
    backend.freed = s.context.backend.freed ∧
    stats.ledger = (Purpose.bridge bridge.guard).enter s.context.stats.ledger

theorem sendBridge_eq_ok (h : runFrom (sendBridge guard home) s = (.ok (), s')) :
    ∃ bridge, bridge.guard = guard ∧ bridge.home = home ∧ SendsBridge s s' bridge := by
  simp only [sendBridge, runFrom_bind, runFrom_modifyTrace, runFrom_get] at h
  split at h
  · simp only [runFrom_bind, runFrom_throw] at h
    cases h
  · simp only [runFrom_bind, runFrom_callBackend, runFrom_modifyContext] at h
    cases hcompile : s.context.backend.compileBridge guard home s.trace.forgetForwarding.inputs
        s.trace.forgetForwarding.operations with
    | mk answer backend =>
      rw [hcompile] at h
      cases answer with
      | error e => cases h
      | ok code =>
        obtain ⟨hloops, hbridges, hfreed⟩ := Backend.compileBridge_eq_ok hcompile
        cases h
        exact ⟨_, rfl, rfl, rfl, rfl, _, _, rfl, hloops, hbridges, hfreed, rfl⟩

theorem operations_forgetForwarding {t : Trace} (h : t.forwarding.isEmpty = true) :
    t.forgetForwarding.operations = t.operations := by
  rw [Trace.forgetForwarding, if_pos h]

private theorem SendsLoop.sent {loop : CompiledLoop} (h : SendsLoop driver inputs s s' loop) :
    s'.trace.home = s.trace.home ∧ s'.trace.operations = loop.operations ∧
      s'.trace.deps = s.trace.deps ∧
      (driver.virtualizable = none → s.trace.forwarding.isEmpty = true →
        loop.operations = s.trace.operations) := by
  obtain ⟨trace, hload, hops, hloaded⟩ := h.loaded
  obtain ⟨⟨hhome, hdeps⟩, hsame⟩ := Trace.loadVirtualizable_eq_ok hload
  rw [hloaded]
  refine ⟨hhome.trans (Trace.home_forgetForwarding _), hops.symm,
    hdeps.trans (Trace.deps_forgetForwarding _), fun hno hforwarding => ?_⟩
  rw [hops, hsame hno, operations_forgetForwarding hforwarding]

/--
The trace of `s` has been placed as a bridge: in the unit of the session, or in a new one if it
enters from the interpreter.
-/
structure Attaches (session : Session) (resumeKey : ResumeKey) (s s' : Submission)
    (piece : Piece) : Prop where
  source : piece.IsFor resumeKey session.home
  home : s'.trace.home = some piece.home
  operations : s'.trace.operations = piece.ops
  deps : s'.trace.deps = piece.deps ∧ piece.deps = s.trace.deps
  unchanged : session.driver.virtualizable = none → s.trace.forwarding.isEmpty = true →
    piece.ops = s.trace.operations
  placed : Context.Places piece s.context.guards s.context s'.context
  unit : s.context.registry.isAlive piece.home = piece.purpose.guard?.isSome

variable {session : Session}

private theorem idles_propagate (s : Submission) : Context.Idles s.context s.propagate.context :=
  ⟨.refl _, .refl _, rfl, .refl _, rfl, rfl⟩

theorem attachToGuard_eq_ok (h : runFrom (attachToGuard session guard) s = (.ok (), s')) :
    ∃ piece, Attaches session (.guard guard) s s' piece := by
  simp only [attachToGuard, runFrom_bind, runFrom_get] at h
  split at h
  · rename_i home hfilter
    obtain ⟨hhome, halive⟩ := Option.filter_eq_some_iff.mp hfilter
    simp only [runFrom_bind, runFrom_modifyTrace, runFrom_modify] at h
    generalize hq : propagate { s with trace := { s.trace with home := some home } } = q at h
    have hidles : Context.Idles s.context q.context := by
      rw [← hq]
      exact idles_propagate { s with trace := { s.trace with home := some home } }
    have htrace : q.trace = { s.trace with home := some home } := by rw [← hq]; rfl
    have hguards : s.context.guards = q.context.guards := by rw [← hq]; rfl
    cases hsend : runFrom (sendBridge guard home) q with
    | mk answer u =>
      rw [hsend] at h
      cases answer with
      | error e => cases h
      | ok _ =>
        obtain ⟨bridge, rfl, rfl, hsends⟩ := sendBridge_eq_ok hsend
        cases h
        obtain ⟨backend, stats, hu, hloops, hbridges, hfreed, hledger⟩ := hsends.context
        refine ⟨⟨.bridge bridge.guard, bridge.home, bridge.operations, s.trace.deps⟩, ⟨rfl, hhome⟩,
          ?_, ?_, ⟨?_, rfl⟩, fun _ hforwarding => ?_, hidles.places ?_, halive⟩
        · simp only [hsends.trace, Trace.home_forgetForwarding, htrace]
        · simp only [hsends.trace, hsends.operations]
        · simp only [hsends.trace, Trace.deps_forgetForwarding, htrace]
        · have hempty : q.trace.forwarding.isEmpty = true := by rw [htrace]; exact hforwarding
          exact hsends.operations.trans ((operations_forgetForwarding hempty).trans (by rw [htrace]))
        · dsimp only
          rw [hu, hguards]
          refine ⟨id, fun v => ?_, ⟨bridge, rfl, rfl, rfl, hloops, hbridges⟩, hfreed, rfl,
            .refl _, rfl, hledger, rfl⟩
          by_cases hv : v = bridge.home
          · have halive' : q.context.registry.isAlive bridge.home = true := by
              rw [hidles.units.alive]
              exact halive
            simp [hv, halive']
          · simp [hv]
  · cases h

theorem attachToInterpreter_eq_ok {greens : GreenKey} (hc : s.context.registry.WellFormed)
    (h : runFrom (attachToInterpreter session greens) s = (.ok (), s')) :
    ∃ piece, Attaches session (.interpreter greens) s s' piece := by
  simp only [attachToInterpreter, runFrom_bind, runFrom_get, runFrom_modify, runFrom_onError] at h
  generalize hq : propagate ⟨(s.context.makeUnit session.driver).2,
    { s.trace with home := some (s.context.makeUnit session.driver).1 }⟩ = q at h
  have hidles : Context.Idles (s.context.makeUnit session.driver).2 q.context := by
    rw [← hq]
    exact idles_propagate ⟨_, _⟩
  have htrace : q.trace = { s.trace with home := some (s.context.makeUnit session.driver).1 } := by
    rw [← hq]; rfl
  have hguards : s.context.guards = q.context.guards := by rw [← hq]; rfl
  cases hsend : runFrom (sendLoop (some greens) session.driver "entry bridge"
      session.history.inputs) q with
  | mk answer u =>
    rw [hsend] at h
    cases answer with
    | error e => cases e <;> cases h
    | ok _ =>
      obtain ⟨loop, hsends⟩ := sendLoop_eq_ok hsend
      simp only [runFrom_modifyContext] at h
      cases h
      obtain ⟨hhome, hops, hdeps, hsame⟩ := hsends.sent
      rw [htrace] at hhome hdeps hsame
      have hunit : loop.unit = (s.context.makeUnit session.driver).1 := by
        have hhome := hsends.home.1
        rw [htrace] at hhome
        exact (Option.some.inj hhome).symm
      have hplaced : Context.Places ⟨.entry, loop.unit, loop.operations, s.trace.deps⟩
          q.context.guards q.context
          ((u.context.attach session.driver greens
            (s.context.makeUnit session.driver).1).modifyStats fun s =>
              { s with entryBridges := s.entryBridges + 1 }) :=
        hsends.places rfl _ rfl rfl rfl rfl (congrArg
          (fun l : Ledger => { l with entries := l.entries + 1 }) hsends.ledger) rfl
      obtain ⟨hplaces, hdead⟩ := Context.Places.ofNew hc hidles (hguards ▸ hplaced) hunit
      exact ⟨⟨.entry, loop.unit, loop.operations, s.trace.deps⟩, rfl,
        hhome.trans (congrArg some hunit.symm), hops, ⟨hdeps, rfl⟩, hsame, hplaces, hdead⟩

theorem attach_eq_ok {resumeKey : ResumeKey} (hc : s.context.registry.WellFormed)
    (h : runFrom (attach session resumeKey) s = (.ok (), s')) :
    ∃ piece, Attaches session resumeKey s s' piece := by
  cases resumeKey with
  | guard g => exact attachToGuard_eq_ok h
  | interpreter greens => exact attachToInterpreter_eq_ok hc h

/-- A bridge that has been placed is delivered, whatever its loop lists before it is recorded. -/
theorem Attaches.delivers {resumeKey : ResumeKey} {piece : Piece} {registry : Registry}
    {answer : Except Stop Unit} {s'' : Submission} (h : Attaches session resumeKey s s' piece)
    (hregistry : s'.context.registry.Alike registry)
    (hrun : runFrom record { s' with context := { s'.context with registry } } = (answer, s'')) :
    answer = .ok () ∧ Context.Delivers piece s.context.guards s.context s''.context := by
  have hplaced := h.placed.then (d := { s'.context with registry }) hregistry rfl rfl rfl rfl
    rfl
  exact record_delivers (s := { s' with context := { s'.context with registry } }) hplaced h.home
    h.operations h.deps.1 h.unit hrun

theorem sendNewLoop_delivers {c : Context} {greens : GreenKey} {maker : Driver}
    (hc : c.registry.WellFormed) (hidles : Context.Idles (c.makeUnit maker).2 s.context)
    (hhome : s.trace.home = some (c.makeUnit maker).1)
    (h : runFrom (sendNewLoop greens driver inputs (c.makeUnit maker).1) s = (.ok (), s')) :
    ∃ ops, (driver.virtualizable = none → s.trace.forwarding.isEmpty = true →
        ops = s.trace.operations) ∧
      Context.Delivers ⟨.loop, (c.makeUnit maker).1, ops, s.trace.deps⟩ s.context.guards c
        s'.context := by
  simp only [sendNewLoop, runFrom_bind, runFrom_modify, runFrom_onError] at h
  generalize hq : s.propagate = q at h
  have hidles' : Context.Idles (c.makeUnit maker).2 q.context := by
    rw [← hq]
    exact hidles.trans (idles_propagate s)
  have htrace : q.trace = s.trace := by rw [← hq]; rfl
  have hguards : s.context.guards = q.context.guards := by rw [← hq]; rfl
  cases hsend : runFrom (sendLoop (some greens) driver "loop" inputs) q with
  | mk answer u =>
    rw [hsend] at h
    cases answer with
    | error e => cases e <;> cases h
    | ok _ =>
      obtain ⟨loop, hsends⟩ := sendLoop_eq_ok hsend
      obtain ⟨hhome', hops, hdeps, hsame⟩ := hsends.sent
      rw [htrace] at hhome' hdeps hsame
      have hunit : loop.unit = (c.makeUnit maker).1 := by
        have hhome' := hsends.home.1
        rw [htrace, hhome] at hhome'
        exact (Option.some.inj hhome').symm
      simp only [runFrom_modifyContext] at h
      have hplaced : Context.Places ⟨.loop, loop.unit, loop.operations, s.trace.deps⟩
          q.context.guards q.context (u.context.attach driver greens (c.makeUnit maker).1) :=
        hsends.places rfl _ rfl rfl rfl rfl hsends.ledger rfl
      obtain ⟨hplaces, hdead⟩ := Context.Places.ofNew hc hidles' hplaced hunit
      rw [hhome, ← hunit] at hhome'
      refine ⟨loop.operations, hsame, ?_⟩
      rw [← hunit, hguards]
      exact (record_delivers hplaces hhome' hops hdeps hdead h).2

end Sending

end Submission

end HotLoop
