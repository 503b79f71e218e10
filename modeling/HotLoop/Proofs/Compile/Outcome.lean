import HotLoop.Compile.Bridge
import HotLoop.Compile.Callback
import HotLoop.Compile.Loop
import HotLoop.Proofs.Compile.Recording
import HotLoop.Proofs.Walk.Request

/-!
# What a compile call comes to

A call may stop in many places, and it leaves the context in one of a few ways. Nothing has been
compiled; a new unit has been made and is left unfinished, or has been released again; a new unit
has got its code; or a bridge has been added to the code of a unit that there was. In no case is
any other unit touched, but that one may list an entry point more.
-/

namespace HotLoop

theorem Unlabelled.not_labels {ops : List Operation} (h : Unlabelled ops) {op : Operation}
    (hop : op ∈ ops) {e : EntryPoint} : op.labels? ≠ some e := by
  rw [Operation.labels?_of_ne (h op hop)]
  intro he
  cases he

theorem LoopHeader.eq_of_labels? {header : LoopHeader} {before loop : List Operation}
    (hbefore : Unlabelled before) (hcopies : Unlabelled header.copies) (hloop : Unlabelled loop)
    {op : Operation} (hop : op ∈ before ++ header.copies ++ [header.label] ++ loop) {e : EntryPoint}
    (he : op.labels? = some e) : e = header.entry := by
  simp only [List.mem_append, List.mem_singleton] at hop
  rcases hop with ((hop | hop) | rfl) | hop
  · exact absurd he (hbefore.not_labels hop)
  · exact absurd he (hcopies.not_labels hop)
  · cases he
    rfl
  · exact absurd he (hloop.not_labels hop)

namespace Context

/--
Nothing has been compiled between `c` and `c'`. Entry points are where they were unless one of the
recorded operations is a label.
-/
structure Quiet (recorded : List Operation) (c c' : Context) : Prop where
  registry : c'.registry = c.registry
  collector : c'.collector = c.collector
  code : c.backend.SameCode c'.backend
  homes : Unlabelled recorded → c.entries.KeepsHomes c'.entries

/-- Between `c` and `c'` the unit `unit` has been made, and it has neither code nor a stamp yet. -/
structure Building (recorded : List Operation) (unit : UnitHandle) (c c' : Context) : Prop where
  new : c.registry.get? unit = none
  steps : Relation.ReflTransGen Units.Step c.units c'.units
  generation : ∀ i, c'.registry.generation i = c.registry.generation i
  others : ∀ h, h ≠ unit → c'.registry.get? h = c.registry.get? h
  own : ∃ u, c'.registry.get? unit = some u ∧ u.generation = 0 ∧
    ∀ e ∈ u.entries, c'.entries.home? e = some unit
  collector : c'.collector = c.collector
  code : c.backend.SameCode c'.backend
  homes : Unlabelled recorded → c.entries.KeepsHomes c'.entries

def list (c : Context) : Option (UnitHandle × EntryPoint) → Context
  | none => c
  | some (owner, e) => c.modifyUnit owner fun u => { u with entries := u.entries ++ [e] }

/--
The code `ops` has been sent since `c`, as a loop of the new unit `home` or as a bridge of a unit
that there was. It has not been recorded yet, but an entry point in it may have been listed.
-/
inductive Submitted (recorded : List Operation) (listed : Option (UnitHandle × EntryPoint))
    (home : UnitHandle) (ops : List Operation) (c c' : Context) : Prop where
  | loop (d : Context) (loop : CompiledLoop) (h : Building recorded home c d)
      (hloop : loop.unit = home ∧ loop.operations = ops)
      (hlisted : ∀ l, listed = some l → c'.entries.home? l.2 = some home)
      (hregistry : c'.registry = ((d.keepAlive home).list listed).registry)
      (hcollector : c'.collector = (d.keepAlive home).collector)
      (hentries : c'.entries = d.entries)
      (hcode : c'.backend.loops = d.backend.loops ++ [loop] ∧
        c'.backend.bridges = d.backend.bridges ∧ c'.backend.freed = d.backend.freed)
  | bridge (d : Context) (bridge : CompiledBridge) (h : Quiet recorded c d)
      (halive : d.registry.isAlive home = true)
      (hbridge : bridge.home = home ∧ bridge.operations = ops)
      (hlisted : ∀ l, listed = some l → c'.entries.home? l.2 = some home)
      (hregistry : c'.registry = (d.list listed).registry)
      (hcollector : c'.collector = d.collector)
      (hentries : c'.entries = d.entries)
      (hcode : c'.backend.loops = d.backend.loops ∧
        c'.backend.bridges = d.backend.bridges ++ [bridge] ∧ c'.backend.freed = d.backend.freed)

/-- What a compile call that starts at `c` may leave behind. -/
inductive Compiled (recorded : List Operation) (c c' : Context) : Prop where
  | quiet (h : Quiet recorded c c')
  | unfinished (unit : UnitHandle) (h : Building recorded unit c c')
  | released (unit : UnitHandle) (d : Context) (h : Building recorded unit c d)
      (h' : Quiet [] (d.releaseUnit unit) c')
  | submitted (listed : Option (UnitHandle × EntryPoint)) (home : UnitHandle)
      (ops : List Operation) (d : Context) (h : Submitted recorded listed home ops c d)
      (hrecorded : Registry.Recorded d.entries home ops d.registry c'.registry)
      (hcollector : c'.collector = d.collector) (hentries : c'.entries = d.entries)
      (hbackend : c'.backend = d.backend)

variable {recorded : List Operation} {unit : UnitHandle} {c c' d : Context}

theorem Quiet.refl (recorded : List Operation) (c : Context) : Quiet recorded c c :=
  ⟨rfl, rfl, .refl _, fun _ => .refl _⟩

theorem Quiet.trans (h : Quiet recorded c c') (h' : Quiet recorded c' d) : Quiet recorded c d where
  registry := h'.registry.trans h.registry
  collector := h'.collector.trans h.collector
  code := h.code.trans h'.code
  homes hr := (h.homes hr).trans (h'.homes hr)

theorem unlabelled_nil : Unlabelled [] := by simp [Unlabelled]

theorem Quiet.mono {recorded' : List Operation} (hr : Unlabelled recorded' → Unlabelled recorded)
    (h : Quiet recorded c c') : Quiet recorded' c c' :=
  { h with homes := fun hr' => h.homes (hr hr') }

section Building

theorem Building.make (hc : c.registry.WellFormed) (driver : Driver) :
    Building recorded (c.makeUnit driver).1 c (c.makeUnit driver).2 where
  new := hc.get?_make_fst
  steps := .single (.make c.units driver.id)
  generation i := Registry.generation_make ..
  others h hne := (hc.get?_make h).trans (if_neg hne)
  own := ⟨_, (hc.get?_make _).trans (if_pos rfl), rfl, by simp⟩
  collector := rfl
  code := .refl _
  homes _ := .refl _

theorem Building.quiet (h : Building recorded unit c c') (h' : Quiet [] c' d) :
    Building recorded unit c d where
  new := h.new
  steps := by
    rw [units_congr h'.registry h'.collector]
    exact h.steps
  generation i := by rw [h'.registry, h.generation]
  others u hne := by rw [h'.registry, h.others u hne]
  own := by
    obtain ⟨u, hget, hgen, hown⟩ := h.own
    refine ⟨u, by rw [h'.registry, hget], hgen, fun e he => ?_⟩
    exact (h'.homes unlabelled_nil).home?_eq_some (hown e he)
  collector := h'.collector.trans h.collector
  code := h.code.trans h'.code
  homes hr := (h.homes hr).trans (h'.homes unlabelled_nil)

/-- The new unit may change, as long as it is not stamped and its entry points lie in it. -/
theorem Building.change (h : Building recorded unit c c') {f : CompiledUnit → CompiledUnit}
    (hf : ∀ u, (f u).generation = u.generation ∧ (f u).invalidated = u.invalidated)
    (hregistry : d.registry = c'.registry.modify unit f) (hcollector : d.collector = c'.collector)
    (hcode : c'.backend.SameCode d.backend)
    (hhomes : Unlabelled recorded → c.entries.KeepsHomes d.entries)
    (hown : ∀ u, c'.registry.get? unit = some u → ∀ e ∈ (f u).entries,
      d.entries.home? e = some unit) : Building recorded unit c d where
  new := h.new
  steps := by
    have hunits : d.units = { c'.units with registry := c'.registry.modify unit f } := by
      rw [units, hregistry, hcollector]
      rfl
    rw [hunits]
    exact h.steps.tail
      (.change c'.units unit f (fun u => (hf u).1) fun u hinv => (hf u).2.trans hinv)
  generation i := by rw [hregistry, Registry.generation_modify, h.generation]
  others u hne := by rw [hregistry, Registry.get?_modify, if_neg hne, h.others u hne]
  own := by
    obtain ⟨u, hget, hgen, -⟩ := h.own
    refine ⟨f u, ?_, (hf u).1.trans hgen, hown u hget⟩
    rw [hregistry, Registry.get?_modify, if_pos rfl, hget, Option.map_some]
  collector := hcollector.trans h.collector
  code := h.code.trans hcode
  homes := hhomes

theorem Building.modify (h : Building recorded unit c c') {f : CompiledUnit → CompiledUnit}
    (hf : ∀ u, (f u).generation = u.generation ∧ (f u).invalidated = u.invalidated ∧
      (f u).entries = u.entries)
    (hregistry : d.registry = c'.registry.modify unit f) (hcollector : d.collector = c'.collector)
    (hcode : c'.backend.SameCode d.backend) (hentries : d.entries = c'.entries) :
    Building recorded unit c d := by
  refine h.change (fun u => ⟨(hf u).1, (hf u).2.1⟩) hregistry hcollector hcode (fun hr => ?_)
    fun u hget e he => ?_
  · rw [hentries]
    exact h.homes hr
  · obtain ⟨u', hget', -, hown⟩ := h.own
    cases hget'.symm.trans hget
    rw [(hf u).2.2] at he
    rw [hentries]
    exact hown e he

/-- Passes may have been run before the unit was made. -/
theorem Building.after (h : Building recorded unit c' d) (h' : Quiet [] c c') :
    Building recorded unit c d where
  new := by rw [← h'.registry]; exact h.new
  steps := by
    rw [← units_congr h'.registry h'.collector]
    exact h.steps
  generation i := by rw [h.generation, h'.registry]
  others u hne := (h.others u hne).trans (by rw [h'.registry])
  own := h.own
  collector := h.collector.trans h'.collector
  code := h'.code.trans h.code
  homes hr := (h'.homes unlabelled_nil).trans (h.homes hr)

end Building

section Submitted

variable {s : Submission} {listed : Option (UnitHandle × EntryPoint)} {home : UnitHandle}
  {ops : List Operation}

theorem Submitted.congr (h : Submitted recorded listed home ops c c')
    (hregistry : d.registry = c'.registry) (hcollector : d.collector = c'.collector)
    (hentries : d.entries = c'.entries) (hbackend : d.backend = c'.backend) :
    Submitted recorded listed home ops c d := by
  cases h with
  | loop b loop h hloop hlisted hreg hcol hent hcode =>
    exact .loop b loop h hloop (hentries ▸ hlisted) (hregistry.trans hreg) (hcollector.trans hcol)
      (hentries.trans hent) (hbackend ▸ hcode)
  | bridge b bridge h halive hbridge hlisted hreg hcol hent hcode =>
    exact .bridge b bridge h halive hbridge (hentries ▸ hlisted) (hregistry.trans hreg)
      (hcollector.trans hcol) (hentries.trans hent) (hbackend ▸ hcode)

theorem Submitted.list (h : Submitted recorded none home ops c c') (owner : UnitHandle)
    {e : EntryPoint} (he : c'.entries.home? e = some home) :
    Submitted recorded (some (owner, e)) home ops c (c'.list (some (owner, e))) := by
  have hlisted : ∀ l, some (owner, e) = some l → c'.entries.home? l.2 = some home := by
    rintro _ ⟨⟩
    exact he
  cases h with
  | loop d loop h hloop _ hregistry hcollector hentries hcode =>
    refine .loop d loop h hloop hlisted ?_ hcollector hentries hcode
    exact congrArg (·.modify owner fun u => { u with entries := u.entries ++ [e] }) hregistry
  | bridge d bridge h halive hbridge _ hregistry hcollector hentries hcode =>
    refine .bridge d bridge h halive hbridge hlisted ?_ hcollector hentries hcode
    exact congrArg (·.modify owner fun u => { u with entries := u.entries ++ [e] }) hregistry

theorem Submitted.record (h : Submitted recorded listed home ops c s.context)
    (hhome : s.trace.home = some home) (hops : s.trace.operations = ops) :
    (runFrom Submission.record s).1 = .ok () ∧
      Compiled recorded c (runFrom Submission.record s).2.context ∧
      (runFrom Submission.record s).2.context.backend = s.context.backend := by
  obtain ⟨hok, hrecorded, hcollector, hentries, hbackend⟩ := Submission.record_of_home hhome
  rw [hops] at hrecorded
  exact ⟨hok, .submitted listed home ops s.context h hrecorded hcollector hentries hbackend,
    hbackend⟩

end Submitted

end Context

end HotLoop
