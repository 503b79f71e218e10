import HotLoop.Proofs.Runs.Moves
import Mathlib.Data.List.Induction

/-!
# The dependents of a field

Code that has been optimized on the assumption that a field does not change has to be invalidated
when the field is written. A unit depends on a field from the moment at which code has been sent for
it that was made of operations reading the field, and until the field is written next. A write
invalidates the dependents that are alive, each of them, and no other unit.
-/

namespace HotLoop

namespace Move

/-- The operations that have been recorded for the code that a move compiles. -/
inductive Records : Move → List Operation → Prop where
  | loop {session : Session} {key : GreenKey} {start : Nat} {inputs : List InputArg}
      {jumpArgs : List Arg} {avoidUnroll : Bool} {proper : Action.Proper _} :
      Records (act (.loop session key start inputs jumpArgs avoidUnroll) proper)
        (session.history.operations.drop start)
  | simpleLoop {session : Session} {key : GreenKey} {inputs : List InputArg}
      {ops : List Operation} {jumpArgs : List Arg} {opts : OptSet} :
      Records (simpleLoop session key inputs ops jumpArgs opts) ops
  | trace {session : Session} {resumeKey : ResumeKey} {proper : Action.Proper _} :
      Records (act (.trace session resumeKey) proper) session.history.operations
  | retrace {session : Session} {key : GreenKey} {start : Nat} {inputs : List Var}
      {jumpArgs : List Arg} {resumeKey : ResumeKey} {proper : Action.Proper _}
      {ops : List Operation} (hops : Workbench.Rejoins session start ops) :
      Records (act (.retrace session key start inputs jumpArgs resumeKey) proper) ops

/-- The field is read as quasi-immutable in what the move compiles, in front of where it ends. -/
def Reads (m : Move) (f : Nat) : Prop := ∃ ops, m.Records ops ∧ f ∈ fieldsRead ops

def Writes (m : Move) (f : Nat) : Prop :=
  match m with
  | act (.invalidate field) _ => f = field
  | _ => False

theorem writes_cases (m : Move) :
    (∀ f, ¬ m.Writes f) ∨ ∃ field proper, m = act (.invalidate field) proper := by
  unfold Writes
  split
  · exact .inr ⟨_, _, rfl⟩
  · exact .inl fun _ => id

end Move

namespace QuasiImmut

variable {q : QuasiImmut} {f f' : Nat} {h home : UnitHandle} {deps : FieldSet}

theorem mem_of_foldl_depend : h ∈ (deps.foldl (·.depend · home) q).of f ↔
    h ∈ q.of f ∨ f ∈ deps ∧ h = home := by
  induction deps generalizing q with
  | nil => simp
  | cons g deps ih => rw [List.foldl_cons, ih, mem_of_depend, List.mem_cons, or_and_right, or_assoc]

theorem nodup_of_depend (hq : ∀ f, (q.of f).Nodup) : ((q.depend f' h).of f).Nodup := by
  unfold depend
  split
  · exact hq f
  · rename_i hnew
    unfold of at hq hnew ⊢
    rw [Table.get?_insert]
    split
    · rw [Option.getD_some]
      refine List.nodup_append.mpr ⟨hq f', List.nodup_singleton h, fun a ha b hb heq => hnew ?_⟩
      rw [List.contains_iff_mem, ← List.mem_singleton.mp hb, ← heq]
      exact ha
    · exact hq f

theorem nodup_of_foldl_depend (hq : ∀ f, (q.of f).Nodup) (f : Nat) :
    ((deps.foldl (·.depend · home) q).of f).Nodup := by
  induction deps generalizing q with
  | nil => exact hq f
  | cons g deps ih => exact ih fun _ => nodup_of_depend hq

end QuasiImmut

namespace Context

variable {c : Context} {m : Move} {moves : List Move} {f : Nat} {h : UnitHandle}

section Writing

theorem of_invalidate (c : Context) (field f : Nat) :
    (c.invalidate field).2.quasiImmut.of f = if f = field then [] else c.quasiImmut.of f := by
  have hget : (c.invalidate field).2.quasiImmut.dependents.get? f =
      if f = field then none else c.quasiImmut.dependents.get? f := Table.get?_erase ..
  rw [QuasiImmut.of, hget]
  split
  · rfl
  · rfl

private theorem get?_invalidateUnits (hs : List UnitHandle) (r : Registry) (h : UnitHandle) :
    (hs.foldl (fun r h => r.modify h fun u => { u with invalidated := true }) r).get? h =
      if h ∈ hs then (r.get? h).map fun u => { u with invalidated := true } else r.get? h := by
  induction hs generalizing r with
  | nil => simp
  | cons h₁ hs ih =>
    rw [List.foldl_cons, ih, Registry.get?_modify]
    by_cases heq : h = h₁
    · subst heq
      cases r.get? h with
      | none => simp
      | some u => simp
    · simp [heq]

theorem get?_invalidate (c : Context) (f : Nat) (h : UnitHandle) :
    (c.invalidate f).2.registry.get? h =
      if h ∈ c.quasiImmut.of f then (c.registry.get? h).map fun u => { u with invalidated := true }
      else c.registry.get? h := by
  have hget : (c.invalidate f).2.registry.get? h = _ := get?_invalidateUnits ..
  rw [hget]
  by_cases hmem : h ∈ c.quasiImmut.of f
  · cases halive : c.registry.isAlive h with
    | true => simp [hmem, halive]
    | false =>
      have hnone : c.registry.get? h = none := Registry.isAlive_eq_false_iff.mp halive
      simp [hnone]
  · simp [hmem]

end Writing

section Moving

theorem registers_perform (hc : c.registry.WellFormed) (hm : ∀ f, ¬ m.Writes f) :
    Registers m.Reads c (m.perform c) := by
  cases m with
  | act action proper =>
    cases action with
    | loop session key start inputs jumpArgs avoidUnroll =>
      refine (Workbench.compileLoop_registers (w := ⟨c, session⟩) hc).congr fun f => ?_
      exact ⟨fun hread => ⟨_, .loop, hread⟩, by rintro ⟨_, ⟨⟩, hread⟩; exact hread⟩
    | trace session resumeKey =>
      refine (Workbench.compileTrace_registers (w := ⟨c, session⟩) hc).congr fun f => ?_
      exact ⟨fun hread => ⟨_, .trace, hread⟩, by rintro ⟨_, ⟨⟩, hread⟩; exact hread⟩
    | retrace session key start inputs jumpArgs resumeKey =>
      refine (Workbench.compileRetrace_registers (w := ⟨c, session⟩) hc proper).congr fun f => ?_
      constructor
      · rintro ⟨ops, hops, hread⟩
        exact ⟨ops, .retrace hops, hread⟩
      · rintro ⟨ops, hops, hread⟩
        cases hops with
        | retrace hops => exact ⟨ops, hops, hread⟩
    | callback driver greens reds =>
      refine (compileCallback_registers hc).congr fun f => ?_
      exact ⟨False.elim, by rintro ⟨_, ⟨⟩, _⟩⟩
    | invalidate field => exact absurd rfl (hm field)
    | keepAlive unit => exact .of_sameCode (.refl _) rfl
    | collect => exact .nothing (fun _ _ => not_sends_nextGeneration) rfl
    | tune tuning => exact .of_sameCode (tuning.quiet c).code (proper c)
  | simpleLoop session key inputs ops jumpArgs opts =>
    refine (Workbench.compileSimpleLoop_registers (w := ⟨c, session⟩) hc).congr fun f => ?_
    exact ⟨fun hread => ⟨_, .simpleLoop, hread⟩, by rintro ⟨_, ⟨⟩, hread⟩; exact hread⟩
  | make driver => exact .of_sameCode (.refl _) rfl
  | release unit => exact .of_sameCode (.refl _) rfl

/--
Behind a move a field has the dependents that it had, unless it is written, and the unit for which
the move sends code if it is read.
-/
theorem mem_of_perform (hc : c.registry.WellFormed) (m : Move) : h ∈ (m.perform c).quasiImmut.of f ↔
    h ∈ c.quasiImmut.of f ∧ ¬ m.Writes f ∨ m.Reads f ∧ ∃ ops, Sends c (m.perform c) h ops := by
  rcases m.writes_cases with hm | ⟨field, proper, rfl⟩
  · cases registers_perform hc hm with
    | nothing hsends hregistered =>
      rw [hregistered]
      simp only [hm f, hsends, not_false_eq_true, and_true, exists_false, and_false, or_false]
    | sent home deps hsends _ hdeps hregistered =>
      rw [hregistered, QuasiImmut.mem_of_foldl_depend, hdeps, hsends]
      simp only [hm f, not_false_eq_true, and_true]
  · have hperform : (Move.act (.invalidate field) proper).perform c = (c.invalidate field).2 := rfl
    have hsends (ops : List Operation) : ¬ Sends c (c.invalidate field).2 h ops :=
      not_sends_of_sameCode (Marks.invalidate c field).code
    rw [hperform, of_invalidate]
    simp only [hsends, exists_false, and_false, or_false, Move.Writes]
    split
    · simp [*]
    · simp [*]

theorem nodup_of_perform (hc : c.registry.WellFormed) (hnodup : ∀ f, (c.quasiImmut.of f).Nodup)
    (m : Move) (f : Nat) : ((m.perform c).quasiImmut.of f).Nodup := by
  rcases m.writes_cases with hm | ⟨field, proper, rfl⟩
  · cases registers_perform hc hm with
    | nothing _ hregistered =>
      rw [hregistered]
      exact hnodup f
    | sent home deps _ _ _ hregistered =>
      rw [hregistered]
      exact QuasiImmut.nodup_of_foldl_depend hnodup f
  · have hof : ((Move.act (.invalidate field) proper).perform c).quasiImmut.of f = _ :=
      of_invalidate c field f
    rw [hof]
    split
    · exact List.nodup_nil
    · exact hnodup f

theorem isAlive_of_sends (hc : c.registry.WellFormed) {ops : List Operation}
    (hsends : Sends c (m.perform c) h ops) : (m.perform c).registry.isAlive h = true := by
  rcases m.writes_cases with hm | ⟨field, proper, rfl⟩
  · cases registers_perform hc hm with
    | nothing hnone _ => exact absurd hsends (hnone h ops)
    | sent home deps hsent halive _ _ => rwa [(hsent h).mp ⟨ops, hsends⟩]
  · exact absurd hsends (not_sends_of_sameCode (Marks.invalidate c field).code)

end Moving

section Following

/--
One of the moves has sent code for the unit that was made of operations reading the field, and the
field has not been written since.
-/
def Relies (c : Context) (moves : List Move) (f : Nat) (h : UnitHandle) : Prop :=
  ∃ earlier m later, moves = earlier ++ m :: later ∧ m.Reads f ∧
    (∃ ops, Sends (c.follow earlier) (m.perform (c.follow earlier)) h ops) ∧
    ∀ m' ∈ later, ¬ m'.Writes f

theorem not_relies_nil : ¬ c.Relies [] f h := by
  rintro ⟨earlier, m, later, heq, -⟩
  simp at heq

theorem relies_concat : c.Relies (moves ++ [m]) f h ↔ c.Relies moves f h ∧ ¬ m.Writes f ∨
    m.Reads f ∧ ∃ ops, Sends (c.follow moves) (m.perform (c.follow moves)) h ops := by
  constructor
  · rintro ⟨earlier, m', later, heq, hreads, hsends, hunwritten⟩
    rcases List.eq_nil_or_concat' later with rfl | ⟨later, last, rfl⟩
    · obtain ⟨rfl, hm⟩ := List.append_inj' heq rfl
      cases hm
      exact .inr ⟨hreads, hsends⟩
    · rw [← List.cons_append, ← List.append_assoc] at heq
      obtain ⟨rfl, hlast⟩ := List.append_inj' heq rfl
      cases hlast
      refine .inl ⟨⟨earlier, m', later, rfl, hreads, hsends, fun m' hm' => ?_⟩, ?_⟩
      · exact hunwritten m' (List.mem_append_left _ hm')
      · exact hunwritten m (List.mem_append_right _ (List.mem_singleton_self m))
  · rintro (⟨⟨earlier, m', later, rfl, hreads, hsends, hunwritten⟩, hwrites⟩ | ⟨hreads, hsends⟩)
    · refine ⟨earlier, m', later ++ [m], by simp, hreads, hsends, fun m'' hm'' => ?_⟩
      rcases List.mem_append.mp hm'' with hm'' | hm''
      · exact hunwritten m'' hm''
      · rwa [List.mem_singleton.mp hm'']
    · exact ⟨moves, m, [], rfl, hreads, hsends, fun m' hm' => by cases hm'⟩

theorem mem_of_follow (hc : c.registry.WellFormed) (hnone : ∀ f, c.quasiImmut.of f = [])
    (moves : List Move) (f : Nat) (h : UnitHandle) :
    h ∈ (c.follow moves).quasiImmut.of f ↔ c.Relies moves f h := by
  -- the induction is on the moves that have been made, for the last one decides
  induction moves using List.reverseRecOn with
  | nil =>
    rw [follow_nil, hnone]
    exact iff_of_false List.not_mem_nil not_relies_nil
  | append_singleton moves m ih =>
    rw [follow_append, follow_cons, follow_nil, mem_of_perform (wellFormed_follow hc moves), ih,
      relies_concat]

theorem nodup_of_follow (hc : c.registry.WellFormed) (hnodup : ∀ f, (c.quasiImmut.of f).Nodup)
    (moves : List Move) (f : Nat) : ((c.follow moves).quasiImmut.of f).Nodup := by
  induction moves generalizing c with
  | nil => exact hnodup f
  | cons m moves ih => exact ih (wellFormed_turns_perform hc m).1 (nodup_of_perform hc hnodup m)

/--
A write to a field invalidates the units that rely on it, changes no other unit, and counts each of
the units that are alive once. A handle that is good at the write stands for the unit for which the
code was sent: that unit has been alive ever since, unless its slot has gone through all of its
generations and has come back to the one in which it was.
-/
theorem invalidate_marks_exactly (cfg : Config) (addresses : Nat → UInt64)
    (moves : List Move) (f : Nat) :
    let start := ofConfig cfg addresses
    let c := start.follow moves
    (∀ h, start.Relies moves f h → (c.invalidate f).2.registry.get? h =
        (c.registry.get? h).map fun u => { u with invalidated := true }) ∧
      (∀ h, ¬ start.Relies moves f h →
        (c.invalidate f).2.registry.get? h = c.registry.get? h) ∧
      (∃ hs : List UnitHandle, hs.Nodup ∧ (c.invalidate f).1 = hs.length ∧
        ∀ h, h ∈ hs ↔ start.Relies moves f h ∧ c.registry.isAlive h = true) ∧
      ∀ earlier m later h ops, moves = earlier ++ m :: later →
        Sends (start.follow earlier) (m.perform (start.follow earlier)) h ops →
        c.registry.isAlive h = true →
        slotTurns h.index (m.perform (start.follow earlier)) later < UInt32.size - 1 →
        ∀ done, done <+: later →
          (start.follow (earlier ++ m :: done)).registry.isAlive h = true := by
  intro start c
  have hstart : start.registry.WellFormed := Registry.wellFormed_empty
  have hmem (h : UnitHandle) : h ∈ c.quasiImmut.of f ↔ start.Relies moves f h :=
    mem_of_follow hstart (fun _ => rfl) moves f h
  refine ⟨fun h hrelies => ?_, fun h hnot => ?_, ?_, ?_⟩
  · rw [get?_invalidate, if_pos ((hmem h).mpr hrelies)]
  · rw [get?_invalidate, if_neg (mt (hmem h).mp hnot)]
  · have hnodup : (c.quasiImmut.of f).Nodup :=
      nodup_of_follow hstart (fun _ => List.nodup_nil) moves f
    refine ⟨(c.quasiImmut.of f).filter c.registry.isAlive, hnodup.filter _, rfl, fun h => ?_⟩
    rw [List.mem_filter, hmem]
  · rintro earlier m later h ops rfl hsends halive hfew done hdone
    have hearlier := wellFormed_follow hstart earlier
    have hbefore := isAlive_of_sends hearlier hsends
    have hafter : ((m.perform (start.follow earlier)).follow later).registry.isAlive h =
        true := by
      rw [← follow_cons, ← follow_append]
      exact halive
    rw [follow_append, follow_cons]
    exact isAlive_of_slotTurns_lt (wellFormed_turns_perform hearlier m).1 hbefore hafter hfew hdone

/-- Of two loops that read a field one has been released, and its slot is in use again. -/
theorem invalidate_marks_exactly_reusedSlot :
    let x : Var := ⟨0, .int⟩
    let read : Operation :=
      { opcode := .quasiimmutField, args := [], descr := some (.quasiImmut 7), failArgs := some [] }
    let compile (n : Int64) : Move :=
      .act (.loop { driver := default, history := { operations := [read], values := ⟨1⟩ } } ⟨[n]⟩ 0
        [⟨x, .int 0⟩] [.var x] true) trivial
    let cfg : Config := { counterBits := 1 }
    let released : UnitHandle := ⟨0, 1⟩
    let newer : UnitHandle := ⟨0, 2⟩
    let other : UnitHandle := ⟨1, 1⟩
    let later : List Move := [.release released, .make default]
    let moves := [compile 1] ++ compile 2 :: later
    let c := (ofConfig cfg).follow moves
    ((ofConfig cfg).Relies moves 7 released ∧ (ofConfig cfg).Relies moves 7 other ∧
        ¬ (ofConfig cfg).Relies moves 7 newer) ∧
      (c.registry.isAlive released = false ∧ c.registry.isAlive newer = true) ∧
      (c.invalidate 7).1 = 1 ∧
      (c.invalidate 7).2.registry.get? other =
        (c.registry.get? other).map (fun u => { u with invalidated := true }) ∧
      (c.invalidate 7).2.registry.get? newer = c.registry.get? newer ∧
      ∀ done, done <+: later → ((ofConfig cfg).follow
        ([compile 1] ++ compile 2 :: done)).registry.isAlive other = true := by
  intro x read compile cfg released newer other later moves c
  obtain ⟨hmarks, hothers, -, hsame⟩ := invalidate_marks_exactly cfg Guard.inOrder moves 7
  have hreads (n : Int64) : (compile n).Reads 7 := ⟨_, .loop, by decide⟩
  have hunwritten : ∀ m ∈ later, ¬ m.Writes 7 := by simp [later, Move.Writes]
  have hfirst : Sends (ofConfig cfg) ((compile 1).perform (ofConfig cfg)) released
      ((c.backend.loops[0]?.getD default).operations) :=
    .inl ⟨c.backend.loops[0]?.getD default, by decide +kernel, rfl, by decide +kernel,
      by decide +kernel⟩
  have hsecond : Sends ((ofConfig cfg).follow [compile 1])
      ((compile 2).perform ((ofConfig cfg).follow [compile 1])) other
      ((c.backend.loops[1]?.getD default).operations) :=
    .inl ⟨c.backend.loops[1]?.getD default, by decide +kernel, rfl, by decide +kernel,
      by decide +kernel⟩
  have hreleased : (ofConfig cfg).Relies moves 7 released := by
    refine ⟨[], compile 1, compile 2 :: later, rfl, hreads 1, ⟨_, hfirst⟩, fun m hm => ?_⟩
    rcases List.mem_cons.mp hm with rfl | hm
    · exact id
    · exact hunwritten m hm
  have hother : (ofConfig cfg).Relies moves 7 other :=
    ⟨[compile 1], compile 2, later, rfl, hreads 2, ⟨_, hsecond⟩, hunwritten⟩
  have hnewer : ¬ (ofConfig cfg).Relies moves 7 newer := by
    intro hrelies
    have hvalid : ((c.invalidate 7).2.registry.get? newer).any (!·.invalidated) = true := by
      decide +kernel
    rw [hmarks newer hrelies] at hvalid
    revert hvalid
    cases c.registry.get? newer with
    | none => simp
    | some u => simp
  refine ⟨⟨hreleased, hother, hnewer⟩, ⟨by decide +kernel, by decide +kernel⟩, by decide +kernel,
    hmarks other hother, hothers newer hnewer, ?_⟩
  exact hsame [compile 1] (compile 2) later other _ rfl hsecond (by decide +kernel)
    (by decide +kernel)

end Following

end Context

end HotLoop
