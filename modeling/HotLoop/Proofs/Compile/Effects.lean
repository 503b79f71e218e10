import HotLoop.Proofs.Compile.Bridge
import HotLoop.Proofs.Compile.Callback
import HotLoop.Proofs.Compile.Loop

/-!
# Effects of a compile call

Whatever a compile call comes to, no unit is lost by it, and no unit forgets a jump. If it has sent
code, then the unit of that code is alive and knows every other unit that the code leads to.
-/

deriving instance DecidableEq for HotLoop.CompiledLoop, HotLoop.CompiledBridge

namespace HotLoop.Context

variable {recorded ops : List Operation} {unit home : UnitHandle} {c c' d : Context}
  {listed : Option (UnitHandle × EntryPoint)}

/-- No unit of `c` is missing in `c'` or has forgotten a jump, and no code has been freed. -/
structure Keeps (c c' : Context) : Prop where
  steps : Relation.ReflTransGen Units.Step c.units c'.units
  units : ∀ h u, c.registry.get? h = some u →
    ∃ u', c'.registry.get? h = some u' ∧ u.jumpsTo ⊆ u'.jumpsTo
  freed : c'.backend.freed = c.backend.freed

namespace Keeps

theorem refl (c : Context) : Keeps c c := ⟨.refl, fun _ u hget => ⟨u, hget, .refl _⟩, rfl⟩

theorem trans (h : Keeps c c') (h' : Keeps c' d) : Keeps c d where
  steps := h.steps.trans h'.steps
  units u unit hget := by
    obtain ⟨unit', hget', hsub⟩ := h.units u unit hget
    obtain ⟨unit'', hget'', hsub'⟩ := h'.units u unit' hget'
    exact ⟨unit'', hget'', List.Subset.trans hsub hsub'⟩
  freed := h'.freed.trans h.freed

/-- Only registry, collector and the list of freed units matter. -/
theorem congr (h : Keeps c d) (hregistry : c'.registry = d.registry)
    (hcollector : c'.collector = d.collector) (hfreed : c'.backend.freed = d.backend.freed) :
    Keeps c c' where
  steps := by
    rw [units_congr hregistry hcollector]
    exact h.steps
  units u unit hget := by
    rw [hregistry]
    exact h.units u unit hget
  freed := hfreed.trans h.freed

theorem alive (h : Keeps c c') {u : UnitHandle} (hu : c.registry.isAlive u = true) :
    c'.registry.isAlive u = true := by
  obtain ⟨unit, hget⟩ := Registry.isAlive_iff.mp hu
  obtain ⟨unit', hget', -⟩ := h.units u unit hget
  exact Registry.isAlive_iff.mpr ⟨unit', hget'⟩

theorem quiet (h : Quiet recorded c c') : Keeps c c' :=
  (refl c).congr h.registry h.collector h.code.freed

theorem building (h : Building recorded unit c c') : Keeps c c' where
  steps := h.steps
  units u u' hget := by
    have hne : u ≠ unit := by
      rintro rfl
      rw [h.new] at hget
      cases hget
    exact ⟨u', (h.others u hne).trans hget, .refl _⟩
  freed := h.code.freed

/-- A unit changes, but it neither forgets a jump nor becomes valid again. -/
theorem modify (c : Context) (unit : UnitHandle) (f : CompiledUnit → CompiledUnit)
    (hf : ∀ u, (f u).generation = u.generation ∧ (f u).jumpsTo = u.jumpsTo ∧
      (u.invalidated = true → (f u).invalidated = true)) : Keeps c (c.modifyUnit unit f) where
  steps := .single (.change c.units unit f (fun u => (hf u).1) fun u => (hf u).2.2)
  units h u hget := by
    have hmodify : (c.modifyUnit unit f).registry.get? h =
        if h = unit then (c.registry.get? unit).map f else c.registry.get? h :=
      Registry.get?_modify ..
    rw [hmodify]
    split
    · rename_i heq
      rw [← heq, hget, Option.map_some]
      exact ⟨f u, rfl, by rw [(hf u).2.1]; exact .refl _⟩
    · exact ⟨u, hget, .refl _⟩
  freed := rfl

theorem keepAlive (c : Context) (unit : UnitHandle) : Keeps c (c.keepAlive unit) where
  steps := .single (.keep c.units unit)
  units h u hget := by
    have hkeep : (c.keepAlive unit).registry.get? h = if h = unit then
        (c.registry.get? unit).map fun u => { u with generation := c.collector.current }
        else c.registry.get? h := Units.get?_keep (u := c.units) h
    rw [hkeep]
    split
    · rename_i heq
      rw [← heq, hget, Option.map_some]
      exact ⟨_, rfl, .refl _⟩
    · exact ⟨u, hget, .refl _⟩
  freed := rfl

theorem list (c : Context) (listed : Option (UnitHandle × EntryPoint)) :
    Keeps c (c.list listed) := by
  cases listed with
  | none => exact .refl c
  | some l => exact .modify c l.1 _ fun u => ⟨rfl, rfl, id⟩

theorem record (h : Registry.Recorded d.entries home ops d.registry c'.registry)
    (hcollector : c'.collector = d.collector) (hfreed : c'.backend.freed = d.backend.freed) :
    Keeps d c' where
  steps := by
    have hunits : c'.units = ⟨c'.registry, d.collector⟩ := by rw [Context.units, hcollector]
    rw [hunits]
    exact h.steps d.collector
  units u unit hget := by
    by_cases heq : u = home
    · subst heq
      obtain ⟨jumps, hsub, hget', -⟩ := h.own unit hget
      exact ⟨_, hget', hsub⟩
    · exact ⟨unit, (h.others u heq).trans hget, .refl _⟩
  freed := hfreed

theorem submitted (h : Submitted recorded listed home ops c c') : Keeps c c' := by
  cases h with
  | loop d loop h hloop hlisted hregistry hcollector hentries hcode =>
    have hd : Keeps c ((d.keepAlive home).list listed) :=
      ((building h).trans (keepAlive d home)).trans (list _ listed)
    refine hd.congr hregistry ?_ ?_
    · rw [hcollector]
      cases listed <;> rfl
    · rw [hcode.2.2]
      cases listed <;> rfl
  | bridge d bridge h halive hbridge hlisted hregistry hcollector hentries hcode =>
    have hd : Keeps c (d.list listed) := (quiet h).trans (list _ listed)
    refine hd.congr hregistry ?_ ?_
    · rw [hcollector]
      cases listed <;> rfl
    · rw [hcode.2.2]
      cases listed <;> rfl

end Keeps

theorem Compiled.keeps (h : Compiled recorded c c') : Keeps c c' := by
  cases h with
  | quiet h => exact .quiet h
  | unfinished unit h => exact .building h
  | released unit d h h' =>
    have hd := Keeps.building h
    obtain ⟨u, hget, hgen, -⟩ := h.own
    have hreleased : Keeps c (d.releaseUnit unit) := {
      steps := by
        refine hd.steps.tail (.discard d.units unit fun u' hget' => ?_)
        cases hget.symm.trans hget'
        exact hgen
      units := by
        intro h₁ u₁ hget₁
        have hne : h₁ ≠ unit := by
          rintro rfl
          rw [h.new] at hget₁
          cases hget₁
        obtain ⟨u₂, hget₂, hsub⟩ := hd.units h₁ u₁ hget₁
        exact ⟨u₂, (Registry.get?_drop ..).trans ((if_neg hne).trans hget₂), hsub⟩
      freed := hd.freed }
    exact hreleased.trans (.quiet h')
  | submitted listed home ops d h hrecorded hcollector hentries hbackend =>
    exact (Keeps.submitted h).trans (.record hrecorded hcollector (by rw [hbackend]))

section Links

/--
The code `ops`, a loop or a bridge in the code of `home`, is all that has been sent since `c`.
-/
def Sends (c c' : Context) (home : UnitHandle) (ops : List Operation) : Prop :=
  (∃ loop : CompiledLoop, loop.unit = home ∧ loop.operations = ops ∧
    c'.backend.loops = c.backend.loops ++ [loop] ∧ c'.backend.bridges = c.backend.bridges) ∨
  ∃ bridge : CompiledBridge, bridge.home = home ∧ bridge.operations = ops ∧
    c'.backend.loops = c.backend.loops ∧ c'.backend.bridges = c.backend.bridges ++ [bridge]

theorem not_sends_of_sameCode (h : c.backend.SameCode c'.backend) : ¬ Sends c c' home ops := by
  rintro (⟨loop, -, -, hloops, -⟩ | ⟨bridge, -, -, -, hbridges⟩)
  · rw [h.loops] at hloops
    simp at hloops
  · rw [h.bridges] at hbridges
    simp at hbridges

theorem Submitted.isAlive (h : Submitted recorded listed home ops c c') :
    c'.registry.isAlive home = true := by
  cases h with
  | loop d loop h hloop hlisted hregistry hcollector hentries hcode =>
    have hd := (Keeps.keepAlive d home).trans (.list _ listed)
    obtain ⟨u, hget, -⟩ := h.own
    rw [hregistry]
    exact hd.alive (Registry.isAlive_of_get? hget)
  | bridge d bridge h halive hbridge hlisted hregistry hcollector hentries hcode =>
    rw [hregistry]
    exact (Keeps.list d listed).alive halive

theorem Submitted.sends (h : Submitted recorded listed unit ops c c') {ops' : List Operation}
    (hsends : Sends c c' home ops') : unit = home ∧ ops = ops' := by
  cases h with
  | loop d loop h hloop hlisted hregistry hcollector hentries hcode =>
    rw [h.code.loops, h.code.bridges] at hcode
    rcases hsends with ⟨loop', hunit, hops, hloops, -⟩ | ⟨bridge, -, -, hloops, -⟩
    · have heq : loop = loop' := by simpa using hcode.1.symm.trans hloops
      exact ⟨hloop.1.symm.trans (heq ▸ hunit), hloop.2.symm.trans (heq ▸ hops)⟩
    · rw [hcode.1] at hloops
      simp at hloops
  | bridge d bridge h halive hbridge hlisted hregistry hcollector hentries hcode =>
    rw [h.code.loops, h.code.bridges] at hcode
    rcases hsends with ⟨loop, -, -, hloops, -⟩ | ⟨bridge', hunit, hops, -, hbridges⟩
    · rw [hcode.1] at hloops
      simp at hloops
    · have heq : bridge = bridge' := by simpa using hcode.2.1.symm.trans hbridges
      exact ⟨hbridge.1.symm.trans (heq ▸ hunit), hbridge.2.symm.trans (heq ▸ hops)⟩

/-- The unit of the code that has been sent knows where it leads to. -/
theorem Compiled.links (h : Compiled recorded c c') (hsends : Sends c c' home ops) :
    ∃ u, c'.registry.get? home = some u ∧
      ∀ op ∈ ops, ∀ o, op.leadsTo? c'.entries = some o → o ≠ home → o ∈ u.jumpsTo := by
  cases h with
  | quiet h => exact absurd hsends (not_sends_of_sameCode h.code)
  | unfinished unit h => exact absurd hsends (not_sends_of_sameCode h.code)
  | released unit d h h' =>
    have hd : c.backend.SameCode (d.releaseUnit unit).backend := h.code
    exact absurd hsends (not_sends_of_sameCode (hd.trans h'.code))
  | submitted listed home' ops' d h hrecorded hcollector hentries hbackend =>
    have hsends' : Sends c d home ops := by
      unfold Sends at hsends
      rwa [hbackend] at hsends
    obtain ⟨rfl, rfl⟩ := h.sends hsends'
    obtain ⟨u, hget⟩ := Registry.isAlive_iff.mp h.isAlive
    obtain ⟨jumps, -, hget', hops⟩ := hrecorded.own u hget
    rw [hentries]
    exact ⟨_, hget', hops⟩

end Links

end HotLoop.Context
