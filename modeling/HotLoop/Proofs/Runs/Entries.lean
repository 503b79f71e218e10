import HotLoop.Proofs.Runs.Actions
import Mathlib.Data.List.Induction
import Mathlib.Data.List.Infix

/-!
# Where entry points lie

The entry point of a loop that was traced once more is listed by the procedure of the loop, but its
code belongs to the unit of a guard, or to a unit of its own. No jump is recorded from the procedure
to that unit. So an entry point that is listed lies in freed code as soon as a collection takes the
unit of the code and leaves the procedure, and in no other case.
-/

namespace HotLoop.Context

variable {recorded ops : List Operation} {unit home : UnitHandle} {c c' d : Context}
  {listed : Option (UnitHandle × EntryPoint)}

/-- The entry point lies in the code of a live unit. -/
def EntryAlive (c : Context) (e : EntryPoint) : Prop :=
  ∃ home, c.entries.home? e = some home ∧ c.registry.isAlive home = true

instance (c : Context) (e : EntryPoint) : Decidable (c.EntryAlive e) :=
  decidable_of_iff ((c.entries.home? e).any c.registry.isAlive) (by
    simp [EntryAlive, Option.any_eq_true])

/-- Every entry point that a live unit lists lies in the code of a live unit. -/
def EntriesAlive (c : Context) : Prop :=
  ∀ h u, c.registry.get? h = some u → ∀ e ∈ u.entries, c.EntryAlive e

/-- If the next collection frees the unit in which an entry point lies, then no other unit that it
leaves alone lists that entry point. -/
def SparesHomes (c : Context) : Prop :=
  ∀ h u e home, c.registry.get? h = some u → e ∈ u.entries → c.entries.home? e = some home →
    home ≠ h → home ∈ c.units.freed → h ∈ c.units.freed

/--
Every entry point that a unit lists in `c'` was listed by it in `c`, or it lies in a live unit.
-/
structure Settles (c c' : Context) : Prop where
  homes : c.entries.KeepsHomes c'.entries
  entries : ∀ h u', c'.registry.get? h = some u' → ∀ e ∈ u'.entries,
    (∃ u, c.registry.get? h = some u ∧ e ∈ u.entries) ∨ c'.EntryAlive e

theorem EntryAlive.keeps {e : EntryPoint} (h : c.EntryAlive e)
    (hhomes : c.entries.KeepsHomes c'.entries) (hkeeps : Keeps c c') : c'.EntryAlive e := by
  obtain ⟨home, hhome, halive⟩ := h
  exact ⟨home, hhomes.home?_eq_some hhome, hkeeps.alive halive⟩

namespace Settles

theorem entriesAlive (h : Settles c c') (hkeeps : Keeps c c') (hc : c.EntriesAlive) :
    c'.EntriesAlive := by
  intro u unit' hget e he
  rcases h.entries u unit' hget e he with ⟨unit, hunit, hmem⟩ | halive
  · exact (hc u unit hunit e hmem).keeps h.homes hkeeps
  · exact halive

theorem trans (h : Settles c d) (h' : Settles d c') (hkeeps : Keeps d c') : Settles c c' where
  homes := h.homes.trans h'.homes
  entries u unit' hget e he := by
    rcases h'.entries u unit' hget e he with ⟨unit, hunit, hmem⟩ | halive
    · rcases h.entries u unit hunit e hmem with hold | halive
      · exact .inl hold
      · exact .inr (halive.keeps h'.homes hkeeps)
    · exact .inr halive

theorem congr (h : Settles c d) (hregistry : c'.registry = d.registry)
    (hentries : c'.entries = d.entries) : Settles c c' where
  homes := by
    rw [hentries]
    exact h.homes
  entries := by
    unfold EntryAlive
    rw [hregistry, hentries]
    exact h.entries

theorem quiet (h : Quiet recorded c c') (hr : Unlabelled recorded) : Settles c c' where
  homes := h.homes hr
  entries _ unit hget _ he := .inl ⟨unit, h.registry ▸ hget, he⟩

theorem marks (h : Marks c c') : Settles c c' where
  homes := by
    rw [h.homes]
    exact .refl _
  entries u unit' hget e he := by
    obtain ⟨unit, hunit, heq⟩ := h.entries_eq u unit' hget
    exact .inl ⟨unit, hunit, heq ▸ he⟩

theorem building (h : Building recorded unit c c') (hr : Unlabelled recorded) : Settles c c' where
  homes := h.homes hr
  entries u unit' hget e he := by
    by_cases heq : u = unit
    · subst heq
      obtain ⟨unit'', hget', -, hown⟩ := h.own
      cases hget'.symm.trans hget
      exact .inr ⟨u, hown e he, Registry.isAlive_of_get? hget⟩
    · exact .inl ⟨unit', (h.others u heq).symm.trans hget, he⟩

theorem list (h : ∀ l, listed = some l → c.EntryAlive l.2) : Settles c (c.list listed) := by
  cases listed with
  | none => exact ⟨.refl _, fun u unit hget e he => .inl ⟨unit, hget, he⟩⟩
  | some l =>
    obtain ⟨owner, entry⟩ := l
    refine ⟨.refl _, fun u unit' hget e he => ?_⟩
    have hget' : (c.registry.modify owner fun u =>
        { u with entries := u.entries ++ [entry] }).get? u = some unit' := hget
    rw [Registry.get?_modify] at hget'
    split at hget'
    · rename_i heq
      obtain ⟨unit, hunit, rfl⟩ := Option.map_eq_some_iff.mp hget'
      rcases List.mem_append.mp he with he | he
      · exact .inl ⟨unit, heq ▸ hunit, he⟩
      · rw [List.mem_singleton.mp he]
        exact .inr ((h _ rfl).keeps (.refl _) (.list c _))
    · exact .inl ⟨unit', hget', he⟩

theorem record (h : Registry.Recorded d.entries home ops d.registry c'.registry)
    (halive : d.registry.isAlive home = true) (hentries : c'.entries = d.entries) :
    Settles d c' where
  homes := by
    rw [hentries]
    exact .refl _
  entries u unit' hget e he := by
    by_cases heq : u = home
    · subst heq
      obtain ⟨unit, hunit⟩ := Registry.isAlive_iff.mp halive
      obtain ⟨jumps, -, hget', -⟩ := h.own unit hunit
      cases hget'.symm.trans hget
      exact .inl ⟨unit, hunit, he⟩
    · exact .inl ⟨unit', (h.others u heq).symm.trans hget, he⟩

theorem submitted (h : Submitted recorded listed home ops c c') (hr : Unlabelled recorded) :
    Settles c c' := by
  have halive := h.isAlive
  cases h with
  | loop d loop h hloop hlisted hregistry hcollector hentries hcode =>
    have hkeeps : Keeps d (d.keepAlive home) := .keepAlive d home
    have hkept : Settles c (d.keepAlive home) :=
      (building h hr).trans (marks (.keepAlive d home)) hkeeps
    obtain ⟨u, hget, -⟩ := h.own
    have hhome : (d.keepAlive home).registry.isAlive home = true :=
      hkeeps.alive (Registry.isAlive_of_get? hget)
    refine (hkept.trans (.list fun l hl => ?_) (.list _ listed)).congr hregistry ?_
    · exact ⟨home, hentries ▸ hlisted l hl, hhome⟩
    · rw [hentries]
      cases listed <;> rfl
  | bridge d bridge h halive hbridge hlisted hregistry hcollector hentries hcode =>
    refine ((quiet h hr).trans (.list fun l hl => ?_) (.list _ listed)).congr hregistry ?_
    · exact ⟨home, hentries ▸ hlisted l hl, halive⟩
    · rw [hentries]
      cases listed <;> rfl

end Settles

theorem Compiled.settles (h : Compiled recorded c c') (hr : Unlabelled recorded) :
    Settles c c' := by
  cases h with
  | quiet h => exact .quiet h hr
  | unfinished unit h => exact .building h hr
  | released unit d h h' =>
    have hreleased : Settles c (d.releaseUnit unit) := {
      homes := h.homes hr
      entries := by
        intro u unit' hget e he
        have hdrop : (d.releaseUnit unit).registry.get? u =
            if u = unit then none else d.registry.get? u := Registry.get?_drop ..
        rw [hdrop] at hget
        split at hget
        · cases hget
        · rename_i hne
          exact .inl ⟨unit', (h.others u hne).symm.trans hget, he⟩ }
    exact hreleased.trans (.quiet h' unlabelled_nil) (.quiet h')
  | submitted listed home ops d h hrecorded hcollector hentries hbackend =>
    exact (Settles.submitted h hr).trans (.record hrecorded h.isAlive hentries)
      (.record hrecorded hcollector (by rw [hbackend]))

theorem entriesAlive_nextGeneration (hc : c.EntriesAlive) :
    c.nextGeneration.2.EntriesAlive ↔ c.SparesHomes := by
  have hget (h : UnitHandle) : c.nextGeneration.2.registry.get? h =
      if h ∈ c.units.freed then none else c.registry.get? h := Units.get?_collect (u := c.units) h
  constructor
  · intro hafter h u e home hu he hhome _ hfreed
    refine Classical.not_not.mp fun hspared => ?_
    obtain ⟨home', hhome', halive⟩ := hafter h u (by rw [hget, if_neg hspared, hu]) e he
    cases hhome.symm.trans hhome'
    obtain ⟨unit, hunit⟩ := Registry.isAlive_iff.mp halive
    rw [hget, if_pos hfreed] at hunit
    cases hunit
  · intro hspares h u hu e he
    rw [hget] at hu
    split at hu
    · cases hu
    · rename_i hspared
      obtain ⟨home, hhome, halive⟩ := hc h u hu e he
      obtain ⟨unit, hunit⟩ := Registry.isAlive_iff.mp halive
      -- an entry point in the unit's own code is spared with it
      have hhomeSpared : home ∉ c.units.freed := by
        intro hfreed
        by_cases heq : home = h
        · exact hspared (heq ▸ hfreed)
        · exact hspared (hspares h u e home hu he hhome heq hfreed)
      exact ⟨home, hhome, Registry.isAlive_of_get? (by rw [hget, if_neg hhomeSpared, hunit])⟩

theorem entriesAlive_perform {maxAge : Nat} {a : Action} (hc : c.units.Consistent maxAge)
    (ha : Unlabelled a.recorded) (hne : a ≠ .collect) (h : c.EntriesAlive) :
    (a.perform c).EntriesAlive := by
  cases performed hc.wellFormed a with
  | compiled hcompiled => exact (hcompiled.settles ha).entriesAlive hcompiled.keeps h
  | marked hmarks => exact (Settles.marks hmarks).entriesAlive hmarks.keeps h
  | collected heq _ => exact absurd heq hne

theorem bridge_enters {settings : PassSettings} {registry : Registry} {inputs : List Var}
    {anyEntry : Bool} {result : Optimized} {p p' : Pass}
    (h : runFrom (Pass.bridge settings registry inputs ops anyEntry) p = (.ok result, p'))
    (hstate : result.state = none) :
    ∃ jump e unit u, result.operations.getLast? = some jump ∧ jump.descr = some (.target e) ∧
      registry.get? unit = some u ∧ e ∈ u.entries := by
  obtain ⟨jump, -, -, hto⟩ := bridge_eq_ok h
  cases hto with
  | waiting => cases hstate
  | entered unit e hpick =>
    have hmem : e ∈ ((registry.get? unit).map (·.entries)).getD [] := by
      unfold Pass.pickEntry? at hpick
      split at hpick
      · exact List.mem_reverse.mp (List.mem_of_find?_eq_some hpick)
      · exact List.mem_of_head? (Option.filter_eq_some_iff.mp hpick).1
    cases hget : registry.get? unit with
    | none =>
      rw [hget] at hmem
      cases hmem
    | some u =>
      rw [hget] at hmem
      exact ⟨_, e, unit, u, List.getLast?_concat .., rfl, hget, hmem⟩

/--
As long as no recorded operation is a label, the entry points that live units list never lie in
freed code if and only if each collection of the run frees, together with the unit that a loop
traced once more was attached to, the procedures that list its entry point. Every bridge that enters
a loop then enters live code.
-/
theorem entriesAlive_iff_sparesHomes (cfg : Config) (addresses : Nat → UInt64)
    (actions : List Action) (hlabels : ∀ a ∈ actions, Unlabelled a.recorded) :
    let start := ofConfig cfg addresses
    ((∀ done, done <+: actions → (start.run done).EntriesAlive) ↔
      ∀ done, done ++ [.collect] <+: actions → (start.run done).SparesHomes) ∧
    ((∀ done, done ++ [.collect] <+: actions → (start.run done).SparesHomes) →
      ∀ done, done <+: actions → ∀ settings inputs ops anyEntry p result p',
        runFrom (Pass.bridge settings (start.run done).registry inputs ops anyEntry) p =
            (.ok result, p') → result.state = none →
          ∃ jump e, result.operations.getLast? = some jump ∧ jump.descr = some (.target e) ∧
            (start.run done).EntryAlive e) := by
  intro start
  have halive (hspares : ∀ done, done ++ [.collect] <+: actions →
      (start.run done).SparesHomes) (done : List Action) (hdone : done <+: actions) :
      (start.run done).EntriesAlive := by
    -- the induction is on what has been done, so the last action is the one at hand
    induction done using List.reverseRecOn with
    | nil =>
      intro h u hget
      cases hget
    | append_singleton done a ih =>
      have hbefore := ih (List.IsPrefix.trans (List.prefix_append ..) hdone)
      rw [run_append]
      by_cases ha : a = .collect
      · subst ha
        exact (entriesAlive_nextGeneration hbefore).mpr (hspares done hdone)
      · exact entriesAlive_perform (reachable_run cfg addresses done).consistent
          (hlabels a (hdone.subset (by simp))) ha hbefore
  refine ⟨⟨fun h done hdone => ?_, halive⟩, fun hspares done hdone => ?_⟩
  · have hafter := h _ hdone
    rw [run_append] at hafter
    exact (entriesAlive_nextGeneration
      (h done (List.IsPrefix.trans (List.prefix_append ..) hdone))).mp hafter
  · intro settings inputs ops anyEntry p result p' hrun hstate
    obtain ⟨jump, e, unit, u, hlast, hdescr, hget, hmem⟩ := bridge_enters hrun hstate
    exact ⟨jump, e, hlast, hdescr, halive hspares done hdone unit u hget e hmem⟩

section Retracing

/-- Units grow old after two generations. -/
def retracingConfig : Config := { loopLongevity := 2, counterBits := 1 }

def retracingLoops : List Action :=
  let i : Var := ⟨0, .int⟩
  let compile (n : Int64) (ops : List Operation) : Action :=
    .loop { driver := default, history := { operations := ops, values := ⟨1⟩ } } ⟨[n]⟩ 0
      [⟨i, .int 0⟩] [.var i] true
  [compile 1 [], compile 2 [{ opcode := .guardTrue, args := [.var i], failArgs := some [] }]]

/-- A trace that ends in the first loop, at an entry point that there is not. -/
def retracingSession (home : Option UnitHandle) : Session where
  driver := default
  history := {
    inputs := [⟨⟨0, .ref⟩, .ref 8⟩]
    operations := [.jump [.var ⟨0, .ref⟩] (.cell ⟨0, 1⟩)]
    values := ⟨1⟩ }
  home

/-- The first loop gets another entry point, in a bridge from the guard. -/
def retracing : List Action :=
  let resumeKey : ResumeKey := .guard ⟨0, .guardTrue, .plain⟩
  let session := retracingSession (some ⟨1, 1⟩)
  let traced := (runFrom (Workbench.compileTrace resumeKey)
    ⟨(ofConfig retracingConfig).run retracingLoops, session⟩).2.session
  retracingLoops ++ [.trace session resumeKey,
    .retrace traced ⟨[1]⟩ 1 [⟨0, .ref⟩] [.var ⟨0, .ref⟩] resumeKey]

/-- A retraced loop whose procedure and whose guard have the same age. -/
theorem entriesAlive_iff_sparesHomes_retracing :
    let actions := retracing ++ [.collect]
    let c := (ofConfig retracingConfig).run actions
    (∀ a ∈ actions, Unlabelled a.recorded) ∧
      (∀ done, done ++ [.collect] <+: actions →
        ((ofConfig retracingConfig).run done).SparesHomes) ∧
      c.EntriesAlive ∧ (c.registry.get? ⟨0, 1⟩).map (·.entries.map c.entries.home?) =
        some [some ⟨0, 1⟩, some ⟨1, 1⟩] := by
  intro actions c
  have hlabels : ∀ a ∈ actions, Unlabelled a.recorded := by decide +kernel
  have hfreed : ∀ done ∈ retracing.inits,
      ((ofConfig retracingConfig).run done).units.freed = [] := by decide +kernel
  have hspares : ∀ done, done ++ [.collect] <+: actions →
      ((ofConfig retracingConfig).run done).SparesHomes := by
    intro done hdone h u e home _ _ _ _ hmem
    have hinit : done <+: retracing := by
      rcases List.prefix_concat_iff.mp hdone with heq | happend
      · rw [List.append_cancel_right heq]
      · exact List.IsPrefix.trans (List.prefix_append ..) happend
    rw [hfreed done ((List.mem_inits ..).mpr hinit)] at hmem
    cases hmem
  refine ⟨hlabels, hspares, ?_, by decide +kernel⟩
  exact (entriesAlive_iff_sparesHomes retracingConfig Guard.inOrder actions hlabels).1.mpr hspares
    actions List.prefix_rfl

/--
When only the procedure is used again, the unit of the guard ages out. A bridge from the interpreter
still enters the loop there.
-/
theorem not_entriesAlive_retracing :
    let actions := retracing ++ [.collect, .keepAlive ⟨0, 1⟩, .collect]
    let c := (ofConfig retracingConfig).run actions
    let c' := Action.perform (.trace (retracingSession none) (.interpreter ⟨[7]⟩)) c
    (∀ a ∈ actions, Unlabelled a.recorded) ∧ ¬ c.EntriesAlive ∧
      ∃ loop e, c'.backend.loops = c.backend.loops ++ [loop] ∧
        loop.operations.getLast?.bind (·.descr) = some (.target e) ∧ ¬ c'.EntryAlive e := by
  intro actions c c'
  let entry : EntryPoint := ⟨2, ⟨0, 1⟩, [.ref]⟩
  refine ⟨by decide +kernel, fun h => ?_, c'.backend.loops.getLast?.getD default, entry,
    by decide +kernel, by decide +kernel, by decide +kernel⟩
  have hdead : ¬ c.EntryAlive entry := by decide +kernel
  have hlisted : ((c.registry.get? ⟨0, 1⟩).any fun u => u.entries.contains entry) = true := by
    decide +kernel
  obtain ⟨u, hget, hmem⟩ := (Option.any_eq_true ..).mp hlisted
  exact hdead (h ⟨0, 1⟩ u hget entry (List.contains_iff_mem.mp hmem))

end Retracing

end HotLoop.Context
