import HotLoop.Proofs.Walk.Emission

/-!
# The descriptors that a walk gives out

The table of guards only grows along a walk: links, positions and virtual objects stay as they are,
and no guard gets busy. A guard in the output has the descriptor that has been recorded for it, or else a new one: a
copy if the loop is walked again, which stands at the same resume position, or an invented one,
which stands at the first.
-/

namespace HotLoop

/-- The virtual objects, and the writes that have been delayed. -/
def ResumeData.objects (data : ResumeData) : List VirtualInfo × List PendingWrite :=
  (data.virtuals, data.pending)

/--
Every guard of the table `t` has the same links and virtual objects in `t'`, and none has got busy.
A guard that is new has no links yet.
-/
structure GuardTable.Grows (t t' : GuardTable) : Prop where
  length_le : t.records.length ≤ t'.records.length
  bridges : ∀ g, (t'.get g).bridges = (t.get g).bridges
  loop : ∀ g, (t'.get g).loop = (t.get g).loop
  busy : ∀ g, (t'.get g).busy = true → (t.get g).busy = true
  position : ∀ g : Guard, g.id < t.records.length →
    (t'.get g).data.position = (t.get g).data.position
  objects : ∀ g : Guard, g.id < t.records.length →
    (t'.get g).data.objects = (t.get g).data.objects

namespace GuardTable

variable {t t' t'' : GuardTable} {g : Guard}

theorem get_make (t : GuardTable) (opcode : OpCode) (kind : GuardKind) (data : ResumeData)
    (g : Guard) :
    (t.make opcode kind data).2.get g = if g.id = t.records.length then { data } else t.get g := by
  simp only [make, get, List.getElem?_append]
  grind

theorem get_make_self (t : GuardTable) (opcode : OpCode) (kind : GuardKind) (data : ResumeData) :
    (t.make opcode kind data).2.get (t.make opcode kind data).1 = { data } :=
  (get_make ..).trans (if_pos rfl)

theorem get_of_length_le (hg : t.records.length ≤ g.id) : t.get g = {} := by
  rw [get, List.getElem?_eq_none hg, Option.getD_none]

namespace Grows

theorem refl (t : GuardTable) : Grows t t :=
  ⟨Nat.le_refl _, fun _ => rfl, fun _ => rfl, fun _ => id, fun _ _ => rfl, fun _ _ => rfl⟩

theorem trans (h : Grows t t') (h' : Grows t' t'') : Grows t t'' where
  length_le := Nat.le_trans h.length_le h'.length_le
  bridges g := (h'.bridges g).trans (h.bridges g)
  loop g := (h'.loop g).trans (h.loop g)
  busy g hg := h.busy g (h'.busy g hg)
  position g hg := (h'.position g (Nat.lt_of_lt_of_le hg h.length_le)).trans (h.position g hg)
  objects g hg := (h'.objects g (Nat.lt_of_lt_of_le hg h.length_le)).trans (h.objects g hg)

theorem make (t : GuardTable) (opcode : OpCode) (kind : GuardKind) (data : ResumeData) :
    Grows t (t.make opcode kind data).2 := by
  have hnew (g : Guard) (hg : g.id = t.records.length) : t.get g = {} :=
    get_of_length_le (Nat.le_of_eq hg.symm)
  refine ⟨by simp [GuardTable.make], fun g => ?_, fun g => ?_, fun g hbusy => ?_, fun g hg => ?_,
    fun g hg => ?_⟩
  · rw [get_make]
    split
    · rw [hnew g ‹_›]
    · rfl
  · rw [get_make]
    split
    · rw [hnew g ‹_›]
    · rfl
  · rw [get_make] at hbusy
    split at hbusy
    · cases hbusy
    · exact hbusy
  · rw [get_make, if_neg (by omega)]
  · rw [get_make, if_neg (by omega)]

/-- A record may change but for its links, its position and its virtual objects. -/
theorem modify (t : GuardTable) (g : Guard) (f : GuardRecord → GuardRecord)
    (hf : (f (t.get g)).bridges = (t.get g).bridges ∧ (f (t.get g)).loop = (t.get g).loop ∧
      ((f (t.get g)).busy = true → (t.get g).busy = true) ∧
      (f (t.get g)).data.position = (t.get g).data.position ∧
      (f (t.get g)).data.objects = (t.get g).data.objects) : Grows t (t.modify g f) := by
  have hget (g' : Guard) (h : g'.id = g.id ∧ g.id < t.records.length) : t.get g = t.get g' := by
    rw [get, get, h.1]
  refine ⟨by simp, fun g' => ?_, fun g' => ?_, fun g' hbusy => ?_, fun g' hg' => ?_,
    fun g' hg' => ?_⟩
  · rw [get_modify]
    split
    · rw [hf.1, hget g' ‹_›]
    · rfl
  · rw [get_modify]
    split
    · rw [hf.2.1, hget g' ‹_›]
    · rfl
  · rw [get_modify] at hbusy
    split at hbusy
    · rw [← hget g' ‹_›]
      exact hf.2.2.1 hbusy
    · exact hbusy
  · rw [get_modify]
    split
    · rw [hf.2.2.2.1, hget g' ‹_›]
    · rfl
  · rw [get_modify]
    split
    · rw [hf.2.2.2.2, hget g' ‹_›]
    · rfl

theorem setCounting (t : GuardTable) (g : Guard) (counting : Counting) :
    Grows t (t.setCounting g counting) :=
  modify t g (fun r => { r with counting, busy := false }) 
    ⟨rfl, rfl, fun h => absurd h (by simp), rfl, rfl⟩

theorem storeBoxes (t : GuardTable) (counter : Counter) (g : Guard) (op : Operation)
    (boxes : List (Option Var)) : Grows t (t.storeBoxes counter g op boxes).2.1 := by
  have hcount : Grows t (t.setCount g boxes.length) := by
    unfold setCount
    exact modify t g _ ⟨rfl, rfl, id, rfl, rfl⟩
  exact hcount.trans (setCounting _ g _)

theorem countPerValue {op : Operation} (h : t.countPerValue g op = .ok t') : Grows t t' := by
  have hspec := t.countPerValue_spec g op
  rw [h] at hspec
  cases hspec with
  | absent => exact refl t
  | slot => exact setCounting t g _

end Grows

end GuardTable

/-- The descriptor that a guard operation has been recorded with. -/
def Operation.ownGuard? (op : Operation) : Option Guard := if op.isGuard then op.guard? else none

theorem guardsIn_cons (op : Operation) (ops : List Operation) :
    guardsIn (op :: ops) = op.ownGuard?.toList ++ guardsIn ops := by
  unfold guardsIn Operation.ownGuard?
  cases hop : op.isGuard with
  | true =>
    rw [List.filter_cons_of_pos hop, if_pos rfl, List.filterMap_cons]
    cases op.guard? <;> rfl
  | false =>
    rw [List.filter_cons_of_neg (by simp [hop]), if_neg (by simp)]
    rfl

@[simp] theorem guardsIn_append (ops ops' : List Operation) :
    guardsIn (ops ++ ops') = guardsIn ops ++ guardsIn ops' := by
  simp [guardsIn]

theorem ownGuard?_eq_some {op : Operation} {g : Guard} :
    op.ownGuard? = some g ↔ op.isGuard = true ∧ op.guard? = some g := by
  simp [Operation.ownGuard?]

def Operation.guardOpcode (op : Operation) : OpCode :=
  (op.ownGuard?.map (·.opcode)).getD (if op.isGuard then op.opcode else .guardNotInvalidated)

theorem guardsIn_eq_nil {ops : List Operation} (h : ∀ op ∈ ops, op.isGuard = false) :
    guardsIn ops = [] := by
  rw [guardsIn, List.filter_eq_nil_iff.mpr fun op hop => by simp [h op hop]]
  rfl

namespace OwnGuards

variable {t t' : GuardTable} {ops tail : List Operation}

theorem grows (h : OwnGuards t ops) (hgrows : t.Grows t') : OwnGuards t' ops :=
  ⟨h.nodup, fun g hg => Nat.lt_of_lt_of_le (h.lt g hg) hgrows.length_le⟩

theorem append (h : OwnGuards t ops) (htail : ∀ op ∈ tail, op.isGuard = false) :
    OwnGuards t (ops ++ tail) := by
  have hguards : guardsIn (ops ++ tail) = guardsIn ops := by
    rw [guardsIn_append, guardsIn_eq_nil htail, List.append_nil]
  exact ⟨hguards ▸ h.nodup, hguards ▸ h.lt⟩

end OwnGuards

namespace Pass

variable {s : PassSettings} {p p' q : Pass} {ops : List Operation} {op r e : Operation}
  {recorded : List (Option Var)} {g : Guard}

section Growing

def GrowsGuards (p p' : Pass) : Prop := p.shared.guards.Grows p'.shared.guards

instance : Std.Refl GrowsGuards := ⟨fun _ => .refl _⟩

instance : IsTrans Pass GrowsGuards := ⟨fun _ _ _ h h' => h.trans h'⟩

theorem fresh_grows (k : Kind) : Goes GrowsGuards (fun _ => False) (fresh k) p := by
  unfold fresh
  refine .get_bind ?_
  split
  · exact .bind (.set (.refl _)) fun _ _ _ => .pure _
  · exact .throw id

private theorem guardFor_grows (op : Operation) :
    Goes GrowsGuards (fun _ => False) (guardFor s op) p := by
  unfold guardFor
  refine .get_bind ?_
  dsimp only
  split
  · split
    · rename_i g _ _
      exact .bind (.set (.make _ g.opcode g.kind _)) fun _ _ _ => .pure _
    · exact .pure _
  · split
    · rename_i hinvent
      obtain ⟨kind, -, hmake⟩ := GuardTable.invent_eq_ok hinvent
      refine .bind (.set ?_) fun _ _ _ => .pure _
      have hgrows := GuardTable.Grows.make p.shared.guards op.opcode kind {}
      rwa [← hmake] at hgrows
    · exact .throw id

private def fileGuard (op : Operation) (recorded : List (Option Var)) (g : Guard) :
    PassM Pass Operation := do
  let p ← get
  let slots := NumberedSlots.ofSlots p.forwarding recorded
  let data := { (p.shared.guards.get g).data with
    numbering := slots.numbering
    consts := slots.consts
    count := slots.boxes.length }
  let guards := p.shared.guards.setData g data
  let (op, guards, counter) := guards.storeBoxes p.shared.counter g op slots.boxes
  set { p with shared := { p.shared with guards, counter } }
  if op.opcode = .guardValue then
    match guards.countPerValue g op with
    | .ok guards => modify fun p => { p with shared := { p.shared with guards } }
    | .error e => throw (.fault e)
  return { op with descr := some (.guard g) }

private theorem finishGuard_eq (hop : ∀ e, op.descr ≠ some (.final e)) :
    finishGuard s op recorded = guardFor s op >>= fileGuard op recorded := by
  unfold finishGuard
  split
  · rename_i e he
    exact absurd he (hop e)
  · rfl

private theorem descr_of_fileGuard (h : runFrom (fileGuard op recorded g) p = (.ok e, p')) :
    e.descr = some (.guard g) := by
  simp only [fileGuard, runFrom_bind_eq_ok, runFrom_get, runFrom_set, Prod.mk.injEq,
    Except.ok.injEq] at h
  obtain ⟨_, _, ⟨rfl, rfl⟩, _, _, ⟨-, rfl⟩, h⟩ := h
  split at h
  · split at h
    · simp only [runFrom_bind_eq_ok, runFrom_pure, Prod.mk.injEq, Except.ok.injEq] at h
      obtain ⟨_, _, -, rfl, -⟩ := h
      rfl
    · cases h
  · simp only [runFrom_pure, Prod.mk.injEq, Except.ok.injEq] at h
    rw [← h.1]

private theorem fileGuard_grows (op : Operation) (recorded : List (Option Var)) (g : Guard) :
    Goes GrowsGuards (fun _ => False) (fileGuard op recorded g) p := by
  refine ⟨?_, fun _ _ => id⟩
  have hstore (slots : NumberedSlots) : p.shared.guards.Grows ((p.shared.guards.setData g
      { (p.shared.guards.get g).data with
        numbering := slots.numbering, consts := slots.consts,
        count := slots.boxes.length }).storeBoxes p.shared.counter g op slots.boxes).2.1 :=
    (GuardTable.Grows.modify _ g _ ⟨rfl, rfl, id, rfl, rfl⟩).trans (.storeBoxes ..)
  simp only [fileGuard, runFrom_bind, runFrom_get, runFrom_set]
  split
  · split
    · rename_i hcount
      exact (hstore _).trans (.countPerValue hcount)
    · exact hstore _
  · exact hstore _

private theorem finishGuard_grows (op : Operation) (recorded : List (Option Var)) :
    Goes GrowsGuards (fun _ => False) (finishGuard s op recorded) p := by
  by_cases hop : ∃ e, op.descr = some (.final e)
  · obtain ⟨e, he⟩ := hop
    unfold finishGuard
    rw [he]
    exact .pure _
  · rw [finishGuard_eq fun e he => hop ⟨e, he⟩]
    exact .bind (guardFor_grows op) fun g q _ => fileGuard_grows op recorded g

/-- However a walk ends, the table of guards has only grown. -/
theorem run_grows (s : PassSettings) (ops : List Operation) (p : Pass) :
    Goes GrowsGuards (fun _ => False) (run s ops) p := by
  refine run_goes_of_step fun op _ q => step_goes (fun q q' h => ?_)
    (fun _ k _ _ => fresh_grows k) (fun o _ _ _ recorded _ => finishGuard_grows o recorded)
    fun _ _ => id
  rw [GrowsGuards, h]
  exact .refl _

end Growing

def recordedPosition (t : GuardTable) (op : Operation) : Nat :=
  ((op.ownGuard?.map fun g => (t.get g).data.position)).getD 0

theorem recordedPosition_of_grows {t t' : GuardTable} {op : Operation} (h : t.Grows t')
    (hlt : ∀ g, op.ownGuard? = some g → g.id < t.records.length) :
    recordedPosition t' op = recordedPosition t op := by
  rw [recordedPosition, recordedPosition]
  cases hown : op.ownGuard? with
  | none => rfl
  | some g => exact h.position g (hlt g hown)

/--
The descriptor `g` has been given to what a walk has put out for the operation `r`, where the table
of guards was `t`, and is `t'` now.
-/
structure Gives (s : PassSettings) (t t' : GuardTable) (r : Operation) (g : Guard) : Prop where
  origin : s.renames = false ∧ r.ownGuard? = some g ∨ t.records.length ≤ g.id
  lt : g.id < t'.records.length
  position : (t'.get g).data.position = recordedPosition t r
  opcode : g.opcode = r.guardOpcode

inductive Emits (s : PassSettings) (p p' : Pass) (r : Operation) : Prop where
  | nothing (hout : p'.out = p.out) (hguards : p'.shared.guards = p.shared.guards)
  | plain (e : Operation) (hout : p'.out = p.out ++ [e])
      (hguards : p'.shared.guards = p.shared.guards) (hnone : e.ownGuard? = none)
      (hnamed : e.guard? = none ∨ e.guard? = r.guard?)
  | guard (e : Operation) (g : Guard) (hout : p'.out = p.out ++ [e])
      (hgrows : p.shared.guards.Grows p'.shared.guards) (hguard : e.ownGuard? = some g)
      (hgives : Gives s p.shared.guards p'.shared.guards r g)

theorem Emits.congr (h : Emits s q p' r) (hout : q.out = p.out)
    (hguards : q.shared.guards = p.shared.guards) : Emits s p p' r := by
  cases h with
  | nothing h h' => exact .nothing (h.trans hout) (h'.trans hguards)
  | plain e h h' hnone hnamed => exact .plain e (hout ▸ h) (h'.trans hguards) hnone hnamed
  | guard e g h h' hguard hgives => exact .guard e g (hout ▸ h) (hguards ▸ h') hguard (hguards ▸ hgives)

private theorem guardFor_gives (hop : op.isGuard = true) (hq : runFrom (guardFor s op) p = (.ok g, q))
    (hlt : ∀ g, op.ownGuard? = some g → g.id < p.shared.guards.records.length) :
    Gives s p.shared.guards q.shared.guards op g := by
  have hown : op.ownGuard? = op.guard? := by rw [Operation.ownGuard?, if_pos hop]
  rw [hown] at hlt
  simp only [guardFor, runFrom_bind_eq_ok, runFrom_get, Prod.mk.injEq, Except.ok.injEq] at hq
  obtain ⟨_, _, ⟨rfl, rfl⟩, hq⟩ := hq
  split at hq
  · rename_i g' hg'
    have hposition : recordedPosition p.shared.guards op = (p.shared.guards.get g').data.position := by
      rw [recordedPosition, hown, hg']
      rfl
    have hopcode : op.guardOpcode = g'.opcode := by
      rw [Operation.guardOpcode, hown, hg']
      rfl
    split at hq
    · simp only [runFrom_bind_eq_ok, runFrom_set, runFrom_pure, Prod.mk.injEq,
        Except.ok.injEq] at hq
      obtain ⟨_, _, ⟨-, rfl⟩, rfl, rfl⟩ := hq
      obtain ⟨hle, hlt'⟩ := GuardTable.lt_of_make (t := p.shared.guards) rfl
      refine ⟨.inr hle, hlt', ?_, hopcode.symm⟩
      dsimp only
      rw [GuardTable.get_make_self, hposition]
    · rename_i hren
      simp only [runFrom_pure, Prod.mk.injEq, Except.ok.injEq] at hq
      obtain ⟨rfl, rfl⟩ := hq
      exact ⟨.inl ⟨eq_false_of_ne_true hren, hown.trans hg'⟩, hlt g' hg', hposition.symm,
        hopcode.symm⟩
  · rename_i hnone
    split at hq
    · rename_i hinvent
      obtain ⟨kind, -, hmake⟩ := GuardTable.invent_eq_ok hinvent
      simp only [runFrom_bind_eq_ok, runFrom_set, runFrom_pure, Prod.mk.injEq,
        Except.ok.injEq] at hq
      obtain ⟨_, _, ⟨-, rfl⟩, rfl, rfl⟩ := hq
      obtain ⟨hle, hlt'⟩ := GuardTable.lt_of_make hmake
      refine ⟨.inr hle, hlt', ?_, ?_⟩
      · have hget := GuardTable.get_make_self p.shared.guards op.opcode kind {}
        rw [← hmake] at hget
        dsimp only at hget ⊢
        rw [hget, recordedPosition, hown, hnone]
        rfl
      · rw [Operation.guardOpcode, hown, hnone, if_pos hop]
        exact congrArg (·.1.opcode) hmake
    · cases hq

private theorem finishGuard_emits (hop : op.isGuard = true)
    (hlt : ∀ g, op.ownGuard? = some g → g.id < p.shared.guards.records.length)
    (h : runFrom (finishGuard s op recorded) p = (.ok e, p')) :
    (e.ownGuard? = none ∧ e.guard? = none ∧ p' = p) ∨
      ∃ g, e.ownGuard? = some g ∧ p.shared.guards.Grows p'.shared.guards ∧
        Gives s p.shared.guards p'.shared.guards op g := by
  by_cases hfinal : ∃ f, op.descr = some (.final f)
  · obtain ⟨f, hf⟩ := hfinal
    unfold finishGuard at h
    rw [hf] at h
    simp only [runFrom_pure, Prod.mk.injEq, Except.ok.injEq] at h
    obtain ⟨rfl, rfl⟩ := h
    have hnone : op.guard? = none := by
      rw [Operation.guard?, hf]
      rfl
    exact .inl ⟨by simp [Operation.ownGuard?, hnone], hnone, rfl⟩
  · obtain ⟨-, hfinishes, -⟩ := finishGuard_eq_ok h
    have hgrows := (finishGuard_grows (s := s) (p := p) op recorded).1
    rw [h] at hgrows
    rw [finishGuard_eq fun f hf => hfinal ⟨f, hf⟩, runFrom_bind_eq_ok] at h
    obtain ⟨g, q, hfind, hfile⟩ := h
    have hgives := guardFor_gives hop hfind hlt
    have hrest := (fileGuard_grows (p := q) op recorded g).1
    rw [hfile] at hrest
    have hguard : e.guard? = some g := by
      rw [Operation.guard?, descr_of_fileGuard hfile]
      rfl
    refine .inr ⟨g, ownGuard?_eq_some.mpr ⟨?_, hguard⟩, hgrows, hgives.origin,
      Nat.lt_of_lt_of_le hgives.lt hrest.length_le, ?_, hgives.opcode⟩
    · rw [Operation.isGuard, hfinishes.opcode]
      exact hop
    · rw [hrest.position g hgives.lt, hgives.position]

private theorem putOut_eq_ok {o : Operation}
    (h : runFrom (if o.isGuard then do
        let e ← finishGuard s o recorded
        modify fun p => { p with out := p.out ++ [e] }
        match e.learned? with
          | some (v, c) => forward v c
          | _ => pure ()
      else do
        let e ← pure o
        modify fun p => { p with out := p.out ++ [e] }
        match e.learned? with
          | some (v, c) => forward v c
          | _ => pure ()) p = (.ok (), p')) :
    ∃ e q, (o.isGuard = true ∧ runFrom (finishGuard s o recorded) p = (.ok e, q) ∨
        o.isGuard = false ∧ e = o ∧ q = p) ∧
      p'.out = p.out ++ [e] ∧ p'.shared.guards = q.shared.guards := by
  have hrest {e : Operation} {q : Pass} (hout : q.out = p.out)
      (h : runFrom (do
        modify fun p => { p with out := p.out ++ [e] }
        match e.learned? with
          | some (v, c) => forward v c
          | _ => pure ()) q = (.ok (), p')) :
      p'.out = p.out ++ [e] ∧ p'.shared.guards = q.shared.guards := by
    rw [← hout]
    simp only [runFrom_bind_eq_ok, runFrom_modify, Prod.mk.injEq] at h
    obtain ⟨_, _, ⟨-, rfl⟩, h⟩ := h
    split at h
    · simp only [runFrom_forward, Prod.mk.injEq] at h
      obtain ⟨-, rfl⟩ := h
      exact ⟨rfl, rfl⟩
    · simp only [runFrom_pure, Prod.mk.injEq] at h
      obtain ⟨-, rfl⟩ := h
      exact ⟨rfl, rfl⟩
  split at h
  · rename_i hguard
    rw [runFrom_bind_eq_ok] at h
    obtain ⟨e, q, hfinish, h⟩ := h
    have hout : q.out = p.out := by
      obtain ⟨_, _, rfl⟩ := (finishGuard_eq_ok hfinish).1
      rfl
    exact ⟨e, q, .inl ⟨hguard, hfinish⟩, hrest hout h⟩
  · rename_i hguard
    rw [runFrom_bind_eq_ok] at h
    obtain ⟨e, q, hpure, h⟩ := h
    simp only [runFrom_pure, Prod.mk.injEq, Except.ok.injEq] at hpure
    obtain ⟨rfl, rfl⟩ := hpure
    exact ⟨o, p, .inr ⟨eq_false_of_ne_true hguard, rfl, rfl⟩, hrest rfl h⟩

private theorem keep_cases_of_ok (h : runFrom (keep s op recorded) p = (.ok (), p')) :
    ∃ (o : Operation) (u : Pass) (e : Operation) (q : Pass),
      o.opcode = op.opcode ∧ o.descr = op.descr ∧
      u.shared.guards = p.shared.guards ∧ u.out = p.out ∧
      (o.isGuard = true ∧ runFrom (finishGuard s o recorded) u = (.ok e, q) ∨
        o.isGuard = false ∧ e = o ∧ q = u) ∧
      p'.out = u.out ++ [e] ∧ p'.shared.guards = q.shared.guards := by
  simp only [keep] at h
  split at h
  · simp only [runFrom_bind_eq_ok] at h
    obtain ⟨v, _, hfresh, _, _, hforward, o, u, hpure, h⟩ := h
    obtain ⟨-, rfl⟩ := fresh_eq_ok hfresh
    simp only [runFrom_forward, Prod.mk.injEq] at hforward
    obtain ⟨-, rfl⟩ := hforward
    simp only [runFrom_pure, Prod.mk.injEq, Except.ok.injEq] at hpure
    obtain ⟨rfl, rfl⟩ := hpure
    obtain ⟨e, q, hcases, hout, hguards⟩ := putOut_eq_ok h
    refine ⟨{ op with result := some v }, _, e, q, rfl, rfl, ?_, ?_, hcases, hout, hguards⟩
    · rfl
    · rfl
  · rw [runFrom_bind_eq_ok] at h
    obtain ⟨o, u, hpure, h⟩ := h
    simp only [runFrom_pure, Prod.mk.injEq, Except.ok.injEq] at hpure
    obtain ⟨rfl, rfl⟩ := hpure
    obtain ⟨e, q, hcases, hout, hguards⟩ := putOut_eq_ok h
    exact ⟨op, p, e, q, rfl, rfl, rfl, rfl, hcases, hout, hguards⟩

private theorem keep_emits (hown : op.ownGuard? = r.ownGuard?)
    (hopcode : op.guardOpcode = r.guardOpcode)
    (hnamed : op.guard? = none ∨ op.guard? = r.guard?)
    (hlt : ∀ g, r.ownGuard? = some g → g.id < p.shared.guards.records.length)
    (h : runFrom (keep s op recorded) p = (.ok (), p')) : Emits s p p' r := by
  obtain ⟨o, u, e, q, hop, hdescr, hguards, hout, hcases, hout', hguards'⟩ := keep_cases_of_ok h
  rw [hout] at hout'
  have hguard : o.isGuard = op.isGuard := by rw [Operation.isGuard, hop, Operation.isGuard]
  have hname : o.guard? = op.guard? := by rw [Operation.guard?, hdescr, Operation.guard?]
  have ho : o.ownGuard? = r.ownGuard? := by
    rw [← hown, Operation.ownGuard?, hguard, hname, Operation.ownGuard?]
  have hposition : recordedPosition p.shared.guards o = recordedPosition p.shared.guards r := by
    rw [recordedPosition, recordedPosition, ho]
  have hopcode' : o.guardOpcode = r.guardOpcode := by
    rw [← hopcode, Operation.guardOpcode, ho, ← hown, hguard, hop, Operation.guardOpcode]
  rcases hcases with ⟨hguard, hfinish⟩ | ⟨hguard, rfl, rfl⟩
  · rcases finishGuard_emits hguard (by rw [hguards, ho]; exact hlt) hfinish with
      ⟨hnone, hnone', rfl⟩ | ⟨g, hg, hgrows, hgives⟩
    · exact .plain e hout' (hguards'.trans hguards) hnone (.inl hnone')
    · rw [hguards, ← hguards'] at hgrows hgives
      exact .guard e g hout' hgrows hg ⟨ho ▸ hgives.origin, hgives.lt,
        hgives.position.trans hposition, hgives.opcode.trans hopcode'⟩
  · exact .plain e hout' (hguards'.trans hguards) (by simp [Operation.ownGuard?, hguard])
      (hname ▸ hnamed)

theorem step_emits (hlt : ∀ g, r.ownGuard? = some g → g.id < p.shared.guards.records.length)
    (h : runFrom (step s r) p = (.ok (), p')) : Emits s p p' r := by
  obtain ⟨deps, -, hstep⟩ := runFrom_step (s := s) (p := p) r
  rw [hstep, dispatch] at h
  split at h
  · cases h
  · cases h
    exact .nothing rfl rfl
  · cases h
    exact .nothing rfl rfl
  · rename_i op' hfate
    have hown : op'.ownGuard? = r.ownGuard? ∧ op'.guardOpcode = r.guardOpcode ∧
        (op'.guard? = none ∨ op'.guard? = r.guard?) := by
      rcases keep_cases hfate with ⟨rfl, -, -⟩ | ⟨hquasi, rfl⟩
      · exact ⟨rfl, rfl, .inr rfl⟩
      · have hop : r.opcode = .quasiimmutField := hquasi
        have hr : r.isGuard = false := by
          rw [Operation.isGuard, hop]
          rfl
        refine ⟨by simp [Operation.ownGuard?, hr, Operation.guard?], ?_, .inl rfl⟩
        simp only [Operation.guardOpcode, Operation.ownGuard?, hr, Operation.guard?]
        rfl
    split at h
    · simp only [runFrom_bind_eq_ok, runFrom_modify, Prod.mk.injEq] at h
      obtain ⟨_, _, ⟨-, rfl⟩, h⟩ := h
      have hemits := keep_emits (p := { p with deps, guarded := true }) hown.1 hown.2.1 hown.2.2 hlt h
      exact hemits.congr rfl rfl
    · have hemits := keep_emits (p := { p with deps }) hown.1 hown.2.1 hown.2.2 hlt h
      exact hemits.congr rfl rfl

theorem Emits.grows (h : Emits s p p' r) : p.shared.guards.Grows p'.shared.guards := by
  cases h with
  | nothing _ h => exact h ▸ .refl _
  | plain _ _ h => exact h ▸ .refl _
  | guard _ _ _ h => exact h

/--
What a walk over `ops` has put out, while the table of guards has become `t'`: no two guards share a
descriptor, and each has its own or one that the table `t` did not have.
-/
structure Issues (s : PassSettings) (t t' : GuardTable) (ops out : List Operation) : Prop where
  nodup : ((guardsIn out).map (·.id)).Nodup
  lt : ∀ g ∈ guardsIn out, g.id < t'.records.length
  origin : ∀ g ∈ guardsIn out, s.renames = false ∧ g ∈ guardsIn ops ∨ t.records.length ≤ g.id
  named : ∀ g, NamesGuard out g → NamesGuard ops g ∨ t.records.length ≤ g.id

namespace Issues

variable {t t' t'' : GuardTable} {out : List Operation}

theorem nil (s : PassSettings) (t : GuardTable) (ops : List Operation) : Issues s t t ops [] :=
  ⟨by simp [guardsIn], by simp [guardsIn], by simp [guardsIn], by simp [NamesGuard]⟩

/-- One operation more has been recorded in front, and has put out nothing. -/
theorem skip (h : Issues s t t' ops out) (r : Operation) : Issues s t t' (r :: ops) out where
  nodup := h.nodup
  lt := h.lt
  origin g hg := (h.origin g hg).imp_left fun ⟨hren, hmem⟩ =>
    ⟨hren, by rw [guardsIn_cons]; exact List.mem_append_right _ hmem⟩
  named g hg := (h.named g hg).imp_left fun ⟨op, hop, hguard⟩ =>
    ⟨op, List.mem_cons_of_mem _ hop, hguard⟩

theorem plain (h : Issues s t t' ops out) (hnone : e.ownGuard? = none)
    (hnamed : e.guard? = none ∨ e.guard? = r.guard?) : Issues s t t' (r :: ops) (e :: out) := by
  have hout : guardsIn (e :: out) = guardsIn out := by rw [guardsIn_cons, hnone]; rfl
  have hskip := h.skip r
  refine ⟨hout ▸ hskip.nodup, hout ▸ hskip.lt, hout ▸ hskip.origin, fun g hg => ?_⟩
  obtain ⟨op, hop, g', hg', hid⟩ := hg
  rcases List.mem_cons.mp hop with rfl | hop
  · rcases hnamed with hnone | heq
    · rw [hnone] at hg'
      cases hg'
    · exact .inl ⟨r, List.mem_cons_self .., g', heq ▸ hg', hid⟩
  · exact hskip.named g ⟨op, hop, g', hg', hid⟩

theorem guard (h : Issues s t' t'' ops out) (hlt : ∀ g ∈ guardsIn (r :: ops), g.id < t.records.length)
    (hnodup : ((guardsIn (r :: ops)).map (·.id)).Nodup) (hgrows : t.Grows t')
    (hgrows' : t'.Grows t'') (hguard : e.ownGuard? = some g) (hgives : Gives s t t' r g) :
    Issues s t t'' (r :: ops) (e :: out) := by
  have hout : guardsIn (e :: out) = g :: guardsIn out := by rw [guardsIn_cons, hguard]; rfl
  have horigin (g' : Guard) (hg' : g' ∈ guardsIn out) :
      s.renames = false ∧ g' ∈ guardsIn ops ∨ t'.records.length ≤ g'.id := h.origin g' hg'
  have hown : s.renames = false ∧ g ∈ guardsIn (r :: ops) ∨ t.records.length ≤ g.id :=
    hgives.origin.imp_left fun ⟨hren, hr⟩ => ⟨hren, by simp [guardsIn_cons, hr]⟩
  refine ⟨?_, fun g' hg' => ?_, fun g' hg' => ?_, fun g' hg' => ?_⟩
  · rw [hout, List.map_cons, List.nodup_cons]
    refine ⟨fun hmem => ?_, h.nodup⟩
    obtain ⟨g', hg', hid⟩ := List.mem_map.mp hmem
    rcases horigin g' hg' with ⟨-, hmem'⟩ | hle
    · -- the descriptor of a later operation is neither that of `r` nor new
      rcases hgives.origin with ⟨-, hr⟩ | hnew
      · rw [guardsIn_cons, hr, Option.toList_some, List.singleton_append, List.map_cons,
          List.nodup_cons] at hnodup
        exact hnodup.1 (hid ▸ List.mem_map_of_mem hmem')
      · have := hlt g' (by simp [guardsIn_cons, hmem'])
        omega
    · have := hgives.lt
      omega
  · rw [hout] at hg'
    rcases List.mem_cons.mp hg' with rfl | hg'
    · exact Nat.lt_of_lt_of_le hgives.lt hgrows'.length_le
    · exact h.lt g' hg'
  · rw [hout] at hg'
    rcases List.mem_cons.mp hg' with rfl | hg'
    · exact hown
    · refine (horigin g' hg').imp (fun ⟨hren, hmem⟩ => ⟨hren, by simp [guardsIn_cons, hmem]⟩)
        fun hle => ?_
      exact Nat.le_trans hgrows.length_le hle
  · obtain ⟨op, hop, g'', hg'', hid⟩ := hg'
    rcases List.mem_cons.mp hop with rfl | hop
    · have heq : g = g'' := Option.some.inj ((ownGuard?_eq_some.mp hguard).2.symm.trans hg'')
      subst heq
      rcases hgives.origin with ⟨-, hr⟩ | hnew
      · exact .inl ⟨r, List.mem_cons_self .., g, (ownGuard?_eq_some.mp hr).2, hid⟩
      · exact .inr (hid ▸ hnew)
    · rcases h.named g' ⟨op, hop, g'', hg'', hid⟩ with ⟨o, ho, hguard'⟩ | hle
      · exact .inl ⟨o, List.mem_cons_of_mem _ ho, hguard'⟩
      · exact .inr (Nat.le_trans hgrows.length_le hle)

end Issues

theorem issues_of_run {last : Option Operation} (hown : OwnGuards p.shared.guards ops)
    (h : runFrom (run s ops) p = (.ok last, p')) :
    ∃ out, p'.out = p.out ++ out ∧ Issues s p.shared.guards p'.shared.guards ops out := by
  induction ops generalizing p with
  | nil =>
    cases h
    exact ⟨[], by simp, Issues.nil ..⟩
  | cons r ops ih =>
    cases hr : r.isFinal with
    | true =>
      obtain ⟨-, rfl⟩ := run_cons_eq_ok_of_isFinal hr h
      exact ⟨[], by simp, Issues.nil ..⟩
    | false =>
      obtain ⟨q, hstep, hrest⟩ := (run_cons_eq_ok_iff hr).mp h
      have hlt (g : Guard) (hg : r.ownGuard? = some g) : g.id < p.shared.guards.records.length :=
        hown.lt g (by simp [guardsIn_cons, hg])
      have hemits := step_emits hlt hstep
      have hown' : OwnGuards q.shared.guards ops := by
        have hnodup := hown.nodup
        rw [guardsIn_cons, List.map_append] at hnodup
        refine ⟨(List.nodup_append.mp hnodup).2.1, fun g hg => ?_⟩
        exact Nat.lt_of_lt_of_le (hown.lt g (by simp [guardsIn_cons, hg])) hemits.grows.length_le
      obtain ⟨out, hout, hissues⟩ := ih hown' hrest
      cases hemits with
      | nothing hq hguards =>
        rw [hguards] at hissues
        exact ⟨out, by rw [hout, hq], hissues.skip r⟩
      | plain e hq hguards hnone hnamed =>
        rw [hguards] at hissues
        exact ⟨e :: out, by simp [hout, hq], hissues.plain hnone hnamed⟩
      | guard e g hq hgrows hguard hgives =>
        have hgrows' := (run_grows s ops q).1
        rw [hrest] at hgrows'
        exact ⟨e :: out, by simp [hout, hq],
          hissues.guard hown.lt hown.nodup hgrows hgrows' hguard hgives⟩

end Pass

end HotLoop
