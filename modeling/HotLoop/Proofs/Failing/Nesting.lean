import HotLoop.Proofs.Failing.Handling

/-!
# Failures within failures

A hook may let further frames fail before it ends, through any guards, the one that it has been
called for among them, and their failures call hooks again. Whatever hooks do, as long as they leave
alone what says whether a guard is busy and how it counts: a guard is busy exactly while a bridge is
being traced from it, no second bridge is traced from it meanwhile, and its failures do nothing by
themselves.
-/

namespace HotLoop

namespace GuardTable

/-- The guard has been made. -/
def Has (t : GuardTable) (g : Guard) : Prop := g.id < t.records.length

instance (t : GuardTable) (g : Guard) : Decidable (t.Has g) :=
  inferInstanceAs (Decidable (g.id < t.records.length))

@[simp] theorem has_modify {t : GuardTable} {g g' : Guard} (f : GuardRecord → GuardRecord) :
    (t.modify g f).Has g' ↔ t.Has g' := by
  simp [Has, modify]

theorem get_startTracing {t : GuardTable} {g : Guard} (h : t.Has g) (g' : Guard) :
    ((t.startTracing g).get g').counting = (t.get g').counting ∧
      ((t.startTracing g).get g').attempts = (t.get g').attempts + [g.id].count g'.id ∧
      ((t.startTracing g).get g').busy = (g'.id == g.id || (t.get g').busy) := by
  rw [startTracing, get_modify]
  by_cases hid : g'.id = g.id
  · have hsame : t.get g' = t.get g := by rw [get, get, hid]
    rw [if_pos ⟨hid, h⟩, hsame, hid]
    simp
  · rw [if_neg fun h' => hid h'.1]
    simp [hid, Ne.symm hid]

theorem get_doneTracing {t : GuardTable} {g : Guard} (h : t.Has g) (g' : Guard) :
    ((t.doneTracing g).get g').counting = (t.get g').counting ∧
      ((t.doneTracing g).get g').attempts = (t.get g').attempts ∧
      ((t.doneTracing g).get g').busy = (g'.id != g.id && (t.get g').busy) := by
  rw [doneTracing, get_modify]
  by_cases hid : g'.id = g.id
  · have hsame : t.get g' = t.get g := by rw [get, get, hid]
    rw [if_pos ⟨hid, h⟩, hsame, hid]
    simp
  · rw [if_neg fun h' => hid h'.1]
    simp [hid]

end GuardTable

namespace Context

/-- Between the two contexts guards have at most been made; whether the others of the given ones are
busy, how they count and how often they have been traced from is as it was. -/
structure KeepsStatus (involved : Set Nat) (c c' : Context) : Prop where
  has : ∀ g, c.guards.Has g → c'.guards.Has g
  same : ∀ g, g.id ∈ involved → c.guards.Has g →
    (c'.guards.get g).busy = (c.guards.get g).busy ∧
      (c'.guards.get g).counting = (c.guards.get g).counting ∧
      (c'.guards.get g).attempts = (c.guards.get g).attempts
  fresh : ∀ g, g.id ∈ involved → ¬ c.guards.Has g → c'.guards.Has g →
    (c'.guards.get g).busy = false

/-- The busy ones of the given guards are those from which bridges are being traced. -/
structure BusyAre (involved : Set Nat) (c : Context) (tracing : List Nat) : Prop where
  has : ∀ g : Guard, g.id ∈ tracing → c.guards.Has g
  busy_iff : ∀ g, g.id ∈ involved → c.guards.Has g →
    ((c.guards.get g).busy = true ↔ g.id ∈ tracing)

variable {involved : Set Nat} {c c' : Context} {tracing : List Nat} {g : Guard}

theorem keepsStatus_of_guards (h : c'.guards = c.guards) : KeepsStatus involved c c' where
  has g hg := h ▸ hg
  same g _ _ := by rw [h]; exact ⟨rfl, rfl, rfl⟩
  fresh g _ hold hg := absurd (h ▸ hg) hold

theorem BusyAre.keepsStatus (h : BusyAre involved c tracing) (hkeeps : KeepsStatus involved c c') :
    BusyAre involved c' tracing where
  has g hg := hkeeps.has g (h.has g hg)
  busy_iff g hin hg := by
    by_cases hold : c.guards.Has g
    · rw [(hkeeps.same g hin hold).1]
      exact h.busy_iff g hin hold
    · have hfree := hkeeps.fresh g hin hold hg
      have hnot : g.id ∉ tracing := fun hmem => hold (h.has g hmem)
      simp [hfree, hnot]

theorem BusyAre.startTracing (h : BusyAre involved c tracing) (hg : c.guards.Has g) :
    BusyAre involved (c.startTracing g) (g.id :: tracing) where
  has g' hg' := by
    refine (GuardTable.has_modify _).mpr ?_
    rcases List.mem_cons.mp hg' with hid | hmem
    · rw [GuardTable.Has, hid]
      exact hg
    · exact h.has g' hmem
  busy_iff g' hin hg' := by
    have hold : c.guards.Has g' := (GuardTable.has_modify _).mp hg'
    have hbusy : ((c.startTracing g).guards.get g').busy = _ :=
      (GuardTable.get_startTracing hg g').2.2
    simp [hbusy, h.busy_iff g' hin hold]

theorem BusyAre.doneTracing (h : BusyAre involved c (g.id :: tracing)) (hg : g.id ∉ tracing) :
    BusyAre involved (c.doneTracing g) tracing where
  has g' hg' := (GuardTable.has_modify _).mpr (h.has g' (List.mem_cons_of_mem _ hg'))
  busy_iff g' hin hg' := by
    have hold : c.guards.Has g' := (GuardTable.has_modify _).mp hg'
    have hbusy : ((c.doneTracing g).guards.get g').busy = _ :=
      (GuardTable.get_doneTracing (h.has g (List.mem_cons_self ..)) g').2.2
    rw [hbusy, Bool.and_eq_true, h.busy_iff g' hin hold]
    by_cases hid : g'.id = g.id
    · simp [hid, hg]
    · simp [hid]

end Context

section Reactions

variable (involved : Set Nat) (ω : Type)

structure Work where
  change : Context × ω → Context × ω
  keepsStatus : ∀ s : Context × ω, s.1.KeepsStatus involved (change s).1

/-- A frame that can leave compiled code in a context: if through a guard, then through one of the
given ones that exists. -/
structure Leaving (c : Context) where
  frame : DeadFrame
  has : ∀ g, frame.descr = .guard g → g.id ∈ involved ∧ c.guards.Has g

/-- All that a hook may do. -/
inductive Reaction where
  | exit (answer : Except Stop FrameExit)
  | work (w : Work involved ω) (next : Context × ω → Reaction)
  | fail (driver : Driver) (leaving : (c : Context) → Leaving involved c)
    (tracing blackholing : Reaction) (next : Except Stop FrameExit → Reaction)

/-- The call of a hook: is it for tracing, and how has it found and left the context? -/
structure HookCall where
  traces : Bool
  entered : Context
  left : Context

structure Handled where
  descr : FailDescr
  /-- The guards from which bridges were being traced, the latest first. -/
  tracing : List Nat
  before : Context
  hook : Option HookCall
  after : Context
  traced : List Nat

/-- The state of the hooks, and what has happened so far. -/
structure Watched where
  own : ω
  tracing : List Nat := []
  traced : List Nat := []
  handled : List Handled := []
  /-- The contexts that hooks and failures have found and left, with the guards then being traced
  from. -/
  moments : List (List Nat × Context) := []
  last : Option HookCall := none

end Reactions

variable {involved : Set Nat} {ω : Type}

namespace Watched

/-- Hooks that react in the given ways, while it is noted which guards are being traced from. -/
def hooks (tracing blackholing : JitM (Context × Watched ω) FrameExit) : Hooks (Watched ω) where
  trace _ g _ := fun s =>
    let start := { s.2 with tracing := g.id :: s.2.tracing, traced := s.2.traced ++ [g.id] }
    let r := tracing (s.1, start)
    (r.1, r.2.1, { r.2.2 with
      tracing := s.2.tracing
      moments := r.2.2.moments ++ [(start.tracing, s.1), (start.tracing, r.2.1)]
      last := some ⟨true, s.1, r.2.1⟩ })
  blackhole _ _ _ _ := fun s =>
    let r := blackholing s
    (r.1, r.2.1, { r.2.2 with
      moments := r.2.2.moments ++ [(s.2.tracing, s.1), (s.2.tracing, r.2.1)]
      last := some ⟨false, s.1, r.2.1⟩ })

def handle (hooks : Hooks (Watched ω)) (driver : Driver) (frame : DeadFrame) :
    JitM (Context × Watched ω) FrameExit := fun s =>
  let r := hooks.handleFail driver frame (s.1, { s.2 with last := none })
  (r.1, r.2.1, { r.2.2 with
    moments := r.2.2.moments ++ [(s.2.tracing, s.1), (s.2.tracing, r.2.1)]
    handled := r.2.2.handled ++ [⟨frame.descr, s.2.tracing, s.1, r.2.2.last, r.2.1,
      r.2.2.traced.drop s.2.traced.length⟩] })

end Watched

/-- Carries a reaction out. -/
def Reaction.run : Reaction involved ω → JitM (Context × Watched ω) FrameExit
  | .exit answer => fun s => (answer, s)
  | .work w next => fun s =>
    let r := w.change (s.1, s.2.own)
    (next r).run (r.1, { s.2 with
      own := r.2
      moments := s.2.moments ++ [(s.2.tracing, r.1)] })
  | .fail driver leaving tracing blackholing next => fun s =>
    let r := Watched.handle (Watched.hooks tracing.run blackholing.run) driver (leaving s.1).frame s
    (next r.1).run r.2

/-- What the handling of a failure can come to, and what it does apart from the hook. -/
inductive Handled.Course (descr : FailDescr) (tracing : List Nat) (before : Context) :
    Option HookCall → Context → Prop where
  /-- The frame just returns, or the guard belongs to another driver. -/
  | plain (h : ∀ g, descr = .guard g → g.IsForced) : Course descr tracing before none before
  | forced (g : Guard) (hdescr : descr = .guard g) (hforced : g.IsForced) (left : Context) :
    Course descr tracing before (some ⟨false, before.countBlackhole, left⟩) left
  | busy (g : Guard) (hdescr : descr = .guard g) (hforced : ¬ g.IsForced) (hbusy : g.id ∈ tracing)
    (left : Context) : Course descr tracing before (some ⟨false, before, left⟩) left
  | traced (g : Guard) (hdescr : descr = .guard g) (hforced : ¬ g.IsForced) (hidle : g.id ∉ tracing)
    (counted left : Context) :
    Course descr tracing before (some ⟨true, counted.startTracing g, left⟩) (left.doneTracing g)
  | blackholed (g : Guard) (hdescr : descr = .guard g) (hforced : ¬ g.IsForced)
    (hidle : g.id ∉ tracing) (counted left : Context) :
    Course descr tracing before (some ⟨false, counted.countBlackhole, left⟩) left

/-- What is wanted of the handling of every failure. -/
structure Handled.Exclusive (involved : Set Nat) (h : Handled) : Prop where
  /-- The failure of a guard of a loop that no hook handles changes nothing. -/
  unhandled : h.hook = none → h.after = h.before
  /-- While a bridge is being traced from the guard, its failure does nothing but call the hook that
  does not trace. -/
  busy : ∀ g, h.descr = .guard g → ¬ g.IsForced → g.id ∈ h.tracing →
    h.hook = some ⟨false, h.before, h.after⟩
  /-- Tracing starts only from guards that are not being traced from already. -/
  once : ∀ g call, h.descr = .guard g → h.hook = some call → call.traces = true →
    g.id ∉ h.tracing
  forced : ∀ g call, h.descr = .guard g → g.IsForced → h.hook = some call →
    call = ⟨false, h.before.countBlackhole, h.after⟩
  /-- Afterwards the guards are busy from which bridges are still being traced. -/
  released : ∀ g, g.id ∈ involved → h.before.guards.Has g →
    ((h.after.guards.get g).busy = true ↔ g.id ∈ h.tracing)
  /-- The guards count as before, and their attempts are the bridges that have been begun. -/
  same : ∀ g, g.id ∈ involved → h.before.guards.Has g →
    (h.after.guards.get g).counting = (h.before.guards.get g).counting ∧
      (h.after.guards.get g).attempts = (h.before.guards.get g).attempts + h.traced.count g.id

namespace Watched

/-- The course of events between two states, the first one with the right guards busy. -/
structure Nested (involved : Set Nat) (s s' : Context × Watched ω) : Prop where
  tracing : s'.2.tracing = s.2.tracing
  busy : s'.1.BusyAre involved s.2.tracing
  has : ∀ g, s.1.guards.Has g → s'.1.guards.Has g
  traced : ∃ new, s'.2.traced = s.2.traced ++ new ∧ ∀ g, g.id ∈ involved → s.1.guards.Has g →
    (s'.1.guards.get g).counting = (s.1.guards.get g).counting ∧
      (s'.1.guards.get g).attempts = (s.1.guards.get g).attempts + new.count g.id
  handled : ∃ new, s'.2.handled = s.2.handled ++ new ∧ ∀ h ∈ new, h.Exclusive involved
  moments : ∃ new, s'.2.moments = s.2.moments ++ new ∧ ∀ m ∈ new, m.2.BusyAre involved m.1

section Course

variable {s t u : Context × Watched ω}

theorem Nested.refl (h : s.1.BusyAre involved s.2.tracing) : Nested involved s s where
  tracing := rfl
  busy := h
  has _ hg := hg
  traced := ⟨[], by simp, by simp⟩
  handled := ⟨[], by simp, by simp⟩
  moments := ⟨[], by simp, by simp⟩

theorem Nested.trans (h : Nested involved s t) (h' : Nested involved t u) :
    Nested involved s u where
  tracing := h'.tracing.trans h.tracing
  busy := h.tracing ▸ h'.busy
  has g hg := h'.has g (h.has g hg)
  traced := by
    obtain ⟨new, hnew, hsame⟩ := h.traced
    obtain ⟨new', hnew', hsame'⟩ := h'.traced
    refine ⟨new ++ new', by rw [hnew', hnew, List.append_assoc], fun g hin hg => ?_⟩
    obtain ⟨hcounting, hattempts⟩ := hsame g hin hg
    obtain ⟨hcounting', hattempts'⟩ := hsame' g hin (h.has g hg)
    refine ⟨hcounting'.trans hcounting, ?_⟩
    rw [hattempts', hattempts, List.count_append, Nat.add_assoc]
  handled := by
    obtain ⟨new, hnew, hall⟩ := h.handled
    obtain ⟨new', hnew', hall'⟩ := h'.handled
    refine ⟨new ++ new', by rw [hnew', hnew, List.append_assoc], fun m hm => ?_⟩
    exact (List.mem_append.mp hm).elim (hall m) (hall' m)
  moments := by
    obtain ⟨new, hnew, hall⟩ := h.moments
    obtain ⟨new', hnew', hall'⟩ := h'.moments
    refine ⟨new ++ new', by rw [hnew', hnew, List.append_assoc], fun m hm => ?_⟩
    exact (List.mem_append.mp hm).elim (hall m) (hall' m)

theorem nested_work (w : Work involved ω) (h : s.1.BusyAre involved s.2.tracing) :
    let r := w.change (s.1, s.2.own)
    Nested involved s (r.1, { s.2 with
      own := r.2
      moments := s.2.moments ++ [(s.2.tracing, r.1)] }) where
  tracing := rfl
  busy := by
    have hkeeps := w.keepsStatus (s.1, s.2.own)
    exact h.keepsStatus hkeeps
  has := (w.keepsStatus (s.1, s.2.own)).has
  traced := by
    refine ⟨[], by simp, fun g hin hg => ?_⟩
    obtain ⟨-, hcounting, hattempts⟩ := (w.keepsStatus (s.1, s.2.own)).same g hin hg
    exact ⟨hcounting, hattempts⟩
  handled := ⟨[], by simp, by simp⟩
  moments := by
    refine ⟨[_], rfl, fun m hm => ?_⟩
    have hkeeps := w.keepsStatus (s.1, s.2.own)
    obtain rfl := List.mem_singleton.mp hm
    exact h.keepsStatus hkeeps

end Course

section Hooks

variable {x y : JitM (Context × Watched ω) FrameExit} {s : Context × Watched ω} {counted : Context}

private theorem moments_concat {old inner : List (List Nat × Context)} {m m' : List Nat × Context}
    (h : ∃ new, inner = old ++ new ∧ ∀ m ∈ new, m.2.BusyAre involved m.1)
    (hm : m.2.BusyAre involved m.1) (hm' : m'.2.BusyAre involved m'.1) :
    ∃ new, inner ++ [m, m'] = old ++ new ∧ ∀ m ∈ new, m.2.BusyAre involved m.1 := by
  obtain ⟨new, rfl, hall⟩ := h
  refine ⟨new ++ [m, m'], List.append_assoc .., fun n hn => ?_⟩
  simp only [List.mem_append, List.mem_cons, List.not_mem_nil, or_false] at hn
  obtain hn | rfl | rfl := hn
  · exact hall n hn
  · exact hm
  · exact hm'

theorem nested_blackhole
    (hy : ∀ s, s.1.BusyAre involved s.2.tracing → Nested involved s (runFrom y s).2)
    (h : s.1.BusyAre involved s.2.tracing) (hcounted : counted.guards = s.1.guards) (driver : Driver)
    (g : Guard) (frame : DeadFrame) (cache : Option VirtualCache) :
    let r := runFrom ((hooks x y).blackhole driver g frame cache) (counted, s.2)
    Nested involved s r.2 ∧ r.2.2.last = some ⟨false, counted, r.2.1⟩ := by
  have hbusy : counted.BusyAre involved s.2.tracing :=
    h.keepsStatus (Context.keepsStatus_of_guards hcounted)
  have hinner := hy (counted, s.2) hbusy
  refine ⟨⟨hinner.tracing, hinner.busy, ?_, ?_, hinner.handled, ?_⟩, rfl⟩
  · rw [← hcounted]
    exact hinner.has
  · rw [← hcounted]
    exact hinner.traced
  · exact moments_concat hinner.moments hbusy hinner.busy

/--
While the hook for tracing runs, the guard is among those from which bridges are being traced.
-/
theorem nested_trace
    (hx : ∀ s, s.1.BusyAre involved s.2.tracing → Nested involved s (runFrom x s).2)
    (h : s.1.BusyAre involved s.2.tracing) {g : Guard} (hg : s.1.guards.Has g)
    (hidle : g.id ∉ s.2.tracing) (hcounted : counted.guards = s.1.guards) (driver : Driver)
    (frame : DeadFrame) :
    let r := runFrom ((hooks x y).trace driver g frame) (counted.startTracing g, s.2)
    Nested involved s (r.2.1.doneTracing g, r.2.2) ∧
      r.2.2.last = some ⟨true, counted.startTracing g, r.2.1⟩ := by
  have hbusy : (counted.startTracing g).BusyAre involved (g.id :: s.2.tracing) :=
    (h.keepsStatus (Context.keepsStatus_of_guards hcounted)).startTracing (hcounted ▸ hg)
  have hinner := hx (counted.startTracing g, { s.2 with
    tracing := g.id :: s.2.tracing, traced := s.2.traced ++ [g.id] }) hbusy
  have hhas (g' : Guard) (hg' : s.1.guards.Has g') :
      (counted.startTracing g).guards.Has g' := by
    refine (GuardTable.has_modify _).mpr ?_
    rw [hcounted]
    exact hg'
  obtain ⟨traced, htraced, hsame⟩ := hinner.traced
  refine ⟨⟨rfl, hinner.busy.doneTracing hidle, fun g' hg' => ?_, ?_, hinner.handled, ?_⟩, rfl⟩
  · exact (GuardTable.has_modify _).mpr (hinner.has g' (hhas g' hg'))
  · refine ⟨g.id :: traced, htraced.trans (List.append_assoc ..), fun g' hin hg' => ?_⟩
    obtain ⟨hcounting, hattempts⟩ := hsame g' hin (hhas g' hg')
    have hstart := GuardTable.get_startTracing (hcounted ▸ hg : counted.guards.Has g) g'
    have hdone := GuardTable.get_doneTracing (hinner.has g (hhas g hg)) g'
    rw [← hcounted]
    refine ⟨hdone.1.trans (hcounting.trans hstart.1), ?_⟩
    refine (hdone.2.1.trans hattempts).trans ?_
    refine (congrArg (· + traced.count g'.id) hstart.2.1).trans ?_
    rw [Nat.add_assoc, ← List.count_append, List.singleton_append]
  · exact moments_concat hinner.moments hbusy hinner.busy

private theorem guards_countFailure (c : Context) (driver : Driver) (g : Guard)
    (frame : DeadFrame) : (c.countFailure driver g frame).2.guards = c.guards := by
  unfold Context.countFailure Context.mustCompile
  dsimp only
  split <;> rfl

theorem nested_handleFail
    (hx : ∀ s, s.1.BusyAre involved s.2.tracing → Nested involved s (runFrom x s).2)
    (hy : ∀ s, s.1.BusyAre involved s.2.tracing → Nested involved s (runFrom y s).2)
    (h : s.1.BusyAre involved s.2.tracing) (hlast : s.2.last = none) (driver : Driver)
    (leaving : Leaving involved s.1) :
    let r := runFrom ((hooks x y).handleFail driver leaving.frame) s
    Nested involved s r.2 ∧
      Handled.Course leaving.frame.descr s.2.tracing s.1 r.2.2.last r.2.1 := by
  cases hdescr : leaving.frame.descr with
  | final exit =>
    rw [Hooks.handleFail_final _ _ _ hdescr]
    refine ⟨.refl h, ?_⟩
    rw [hlast]
    exact .plain fun g hg => by cases hg
  | guard g =>
    rw [Hooks.handleFail_guard _ _ _ hdescr]
    obtain ⟨hin, hg⟩ := leaving.has g hdescr
    by_cases hforced : g.IsForced
    · obtain ⟨owner, howner⟩ := hforced
      by_cases hdriver : owner = driver.id
      · rw [Hooks.handleGuard_forced _ _ _ (hdriver ▸ howner)]
        have hcounted : s.1.countBlackhole.guards = s.1.guards := rfl
        obtain ⟨hnested, hcall⟩ := nested_blackhole (x := x) hy h hcounted driver g
          leaving.frame.afterExit (some (leaving.frame.saved.getD []))
        refine ⟨hnested, ?_⟩
        rw [hcall]
        exact .forced g rfl ⟨owner, howner⟩ _
      · rw [Hooks.handleGuard_foreign _ _ _ howner hdriver]
        refine ⟨.refl h, ?_⟩
        rw [hlast]
        exact .plain fun g' hg' => by cases hg'; exact ⟨owner, howner⟩
    · cases hbusy : (s.1.guards.get g).busy with
      | true =>
        rw [Hooks.handleGuard_busy _ _ _ hforced hbusy]
        obtain ⟨hnested, hcall⟩ := nested_blackhole (x := x) hy h rfl driver g leaving.frame none
        refine ⟨hnested, ?_⟩
        rw [hcall]
        exact .busy g rfl hforced ((h.busy_iff g hin hg).mp hbusy) _
      | false =>
        have hidle : g.id ∉ s.2.tracing := fun hmem => by
          have hyes := (h.busy_iff g hin hg).mpr hmem
          rw [hbusy] at hyes
          cases hyes
        rw [Hooks.handleGuard_idle _ _ _ hforced hbusy]
        have hguards := guards_countFailure s.1 driver g leaving.frame
        dsimp only
        split
        · obtain ⟨hnested, hcall⟩ :=
            nested_trace (y := y) hx h hg hidle hguards driver leaving.frame
          refine ⟨hnested, ?_⟩
          rw [hcall]
          exact .traced g rfl hforced hidle _ _
        · have hcounted :
              (s.1.countFailure driver g leaving.frame).2.countBlackhole.guards = s.1.guards :=
            hguards
          obtain ⟨hnested, hcall⟩ :=
            nested_blackhole (x := x) hy h hcounted driver g leaving.frame none
          refine ⟨hnested, ?_⟩
          rw [hcall]
          exact .blackholed g rfl hforced hidle _ _

theorem exclusive_of_course {descr : FailDescr} {tracing traced : List Nat} {before after : Context}
    {call : Option HookCall} (h : Handled.Course descr tracing before call after)
    (hafter : after.BusyAre involved tracing)
    (hhas : ∀ g, before.guards.Has g → after.guards.Has g)
    (hsame : ∀ g, g.id ∈ involved → before.guards.Has g →
      (after.guards.get g).counting = (before.guards.get g).counting ∧
        (after.guards.get g).attempts = (before.guards.get g).attempts + traced.count g.id) :
    Handled.Exclusive involved ⟨descr, tracing, before, call, after, traced⟩ where
  unhandled hnone := by
    dsimp only at hnone
    subst hnone
    cases h with
    | plain _ => rfl
  busy g hdescr hforced hmem := by
    dsimp only at hdescr hmem
    subst hdescr
    cases h with
    | plain h => exact absurd (h g rfl) hforced
    | forced g' hdescr h => cases hdescr; exact absurd h hforced
    | busy g' hdescr _ _ => rfl
    | traced g' hdescr _ hidle => cases hdescr; exact absurd hmem hidle
    | blackholed g' hdescr _ hidle => cases hdescr; exact absurd hmem hidle
  once g call' hdescr hcall htraces := by
    dsimp only at hdescr hcall
    subst hdescr hcall
    cases h with
    | forced => cases htraces
    | busy => cases htraces
    | traced g' hdescr _ hidle => cases hdescr; exact hidle
    | blackholed => cases htraces
  forced g call' hdescr hforced hcall := by
    dsimp only at hdescr hcall
    subst hdescr hcall
    cases h with
    | forced => rfl
    | busy g' hdescr h => cases hdescr; exact absurd hforced h
    | traced g' hdescr h => cases hdescr; exact absurd hforced h
    | blackholed g' hdescr h => cases hdescr; exact absurd hforced h
  released g hin hg := hafter.busy_iff g hin (hhas g hg)
  same := hsame

theorem nested_handle
    (hx : ∀ s, s.1.BusyAre involved s.2.tracing → Nested involved s (runFrom x s).2)
    (hy : ∀ s, s.1.BusyAre involved s.2.tracing → Nested involved s (runFrom y s).2)
    (h : s.1.BusyAre involved s.2.tracing) (driver : Driver) (leaving : Leaving involved s.1) :
    Nested involved s (runFrom (handle (hooks x y) driver leaving.frame) s).2 := by
  let start : Context × Watched ω := (s.1, { s.2 with last := none })
  obtain ⟨hnested, hcourse⟩ := nested_handleFail hx hy (s := start) h rfl driver leaving
  obtain ⟨traced, htraced, hsame⟩ := hnested.traced
  obtain ⟨handled, hhandled, hall⟩ := hnested.handled
  refine ⟨hnested.tracing, hnested.busy, hnested.has, ⟨traced, htraced, hsame⟩, ?_, ?_⟩
  · refine ⟨handled ++ [_], (congrArg (· ++ _) hhandled).trans (List.append_assoc ..), ?_⟩
    intro record hrecord
    rcases List.mem_append.mp hrecord with hmem | hmem
    · exact hall record hmem
    · obtain rfl := List.mem_singleton.mp hmem
      refine exclusive_of_course hcourse hnested.busy hnested.has ?_
      have hdrop := (congrArg (List.drop s.2.traced.length) htraced).trans List.drop_left
      intro g hin hg
      obtain ⟨hcounting, hattempts⟩ := hsame g hin hg
      exact ⟨hcounting, hattempts.trans (congrArg (_ + List.count g.id ·) hdrop.symm)⟩
  · exact moments_concat hnested.moments h hnested.busy

end Hooks

end Watched

theorem Reaction.nested (reaction : Reaction involved ω) :
    ∀ s : Context × Watched ω, s.1.BusyAre involved s.2.tracing →
      Watched.Nested involved s (runFrom reaction.run s).2 := by
  -- by induction on the reaction: whatever a hook does, and whatever those do that it brings about
  induction reaction with
  | exit answer => exact fun s h => .refl h
  | work w next ih =>
    intro s h
    have hwork := Watched.nested_work w h
    exact hwork.trans (ih _ _ (hwork.tracing ▸ hwork.busy))
  | fail driver leaving tracing blackholing next ihTracing ihBlackholing ihNext =>
    intro s h
    have hfail := Watched.nested_handle ihTracing ihBlackholing h driver (leaving s.1)
    exact hfail.trans (ihNext _ _ (hfail.tracing ▸ hfail.busy))

/-- At most one bridge is being traced from a guard at a time. -/
theorem Reaction.run_exclusive (reaction : Reaction involved ω) (s : Context × Watched ω)
    (hstart : s.1.BusyAre involved s.2.tracing) :
    let r := (runFrom reaction.run s).2
    r.1.BusyAre involved s.2.tracing ∧ r.2.tracing = s.2.tracing ∧
      (∃ moments, r.2.moments = s.2.moments ++ moments ∧
        ∀ m ∈ moments, m.2.BusyAre involved m.1) ∧
      ∃ handled, r.2.handled = s.2.handled ++ handled ∧
        ∀ h ∈ handled, h.Exclusive involved := by
  have h := reaction.nested s hstart
  exact ⟨h.busy, h.tracing, h.moments, h.handled⟩

/--
A frame that leaves through a plain guard once the guard exists, and just returns before that.
-/
def Leaving.through (id : Nat) (c : Context) : Leaving Set.univ c :=
  if h : id < c.guards.records.length then
    ⟨{ descr := .guard ⟨id, .guardTrue, .plain⟩, values := [] }, fun g hg => by
      cases hg
      exact ⟨trivial, h⟩⟩
  else ⟨{ descr := .final .doneVoid, values := [] }, fun g hg => by cases hg⟩

/-- While a bridge is traced from one guard, it fails again, and another one fails within that; both
hooks give up. -/
def failingWithin : Reaction Set.univ Unit :=
  let giveUp : Reaction Set.univ Unit := .exit (.error (.error .switchToBlackhole))
  let other := .fail default (.through 1) giveUp giveUp .exit
  let again := .fail default (.through 0) giveUp other .exit
  .fail default (.through 0) again giveUp .exit

/-- Two guards, the failures of which are traced at once. -/
def eagerContext : Context where
  collector := .ofMaxAge 0
  counter := .ofBits 1
  guards := ⟨[{}, {}]⟩
  warm := .ofList [(0, { eagerness := 1 })]

private theorem busyAre_eagerContext : eagerContext.BusyAre Set.univ [] where
  has g hg := absurd hg (List.not_mem_nil)
  busy_iff g _ hg := by
    have hcases : g.id = 0 ∨ g.id = 1 := by
      have hlt : g.id < 2 := hg
      omega
    rcases hcases with hid | hid <;> simp [eagerContext, GuardTable.get, hid]

theorem Reaction.run_exclusive_failingWithin :
    let s : Context × Watched Unit := (eagerContext, { own := () })
    let r := (runFrom failingWithin.run s).2
    s.1.BusyAre Set.univ s.2.tracing ∧
      r.2.handled.map (fun h => (h.tracing, h.hook.map (·.traces), h.traced)) =
        [([0], some true, [1]), ([0], some false, [1]), ([], some true, [0, 1])] ∧
      r.1.BusyAre Set.univ s.2.tracing ∧ ∀ h ∈ r.2.handled, h.Exclusive Set.univ := by
  intro s r
  obtain ⟨hbusy, -, -, handled, hhandled, hall⟩ :=
    failingWithin.run_exclusive s busyAre_eagerContext
  refine ⟨busyAre_eagerContext, by decide +kernel, hbusy, fun h hh => hall h ?_⟩
  rw [hhandled] at hh
  exact hh

end HotLoop
