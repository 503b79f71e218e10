import HotLoop.Proofs.Resume.Rebuilding
import HotLoop.Proofs.Resume.Steps
import HotLoop.Proofs.Walk.Descriptors

/-!
# Virtual objects behind an optimized guard

The virtual objects and the delayed writes of a guard are kept as they have been recorded, while the
frame and the constants that they refer to are numbered anew. An entry keeps its meaning exactly if
it names a fail argument that is still a variable, or a constant that is at the same place in the
new pool; the objects are rebuilt as recorded if all entries keep theirs.
-/

namespace HotLoop

/-- All entries of the virtual objects and of the delayed writes. -/
def ResumeData.entries (data : ResumeData) : List Tagged :=
  data.virtuals.flatMap (fun info => info.contents.map (·.2)) ++
    data.pending.flatMap fun w => [w.target, w.value]

/--
The entry refers to a variable among the fail arguments `slots`, or to a constant that is the same
in both pools, or to neither.
-/
def Tagged.StaysIn (old new : ResumeData) (slots : List (Option Var)) : Tagged → Prop
  | .box i => ∃ v, slots[i]? = some (some v)
  | .const i => new.consts[i]?.getD .void = old.consts[i]?.getD .void
  | _ => True

instance Tagged.StaysIn.decidable (old new : ResumeData) (slots : List (Option Var)) :
    (t : Tagged) → Decidable (t.StaysIn old new slots)
  | .box i =>
    match h : slots[i]? with
    | some (some v) => .isTrue ⟨v, h⟩
    | some none => .isFalse fun ⟨_, hv⟩ => by rw [h] at hv; cases hv
    | none => .isFalse fun ⟨_, hv⟩ => by rw [h] at hv; cases hv
  | .const i => inferInstanceAs (Decidable (_ = _))
  | .int _ | .virtual _ | .null => .isTrue trivial

/-- The entry means the same in both frames, wherever the virtual objects are. -/
def Tagged.MeansAlike (old new : ResumeData) (recorded values : List Value) (t : Tagged) : Prop :=
  ∀ cache, new.meaning values cache t = old.meaning recorded cache t

namespace Reader

variable {η : Type} [VirtualHeap η] {old new : ResumeData} {recorded values : List Value}

omit [VirtualHeap η] in
private theorem decodeWith_congr {build build' : Nat → Reader η → UInt64 × Reader η} {t : Tagged}
    (ht : t.MeansAlike old new recorded values) (hbuild : ∀ i r, build i r = build' i r)
    (r : Reader η) : decodeWith new values build t r = decodeWith old recorded build' t r := by
  cases t with
  | virtual i => rw [decodeWith, decodeWith, hbuild]
  | _ => exact Prod.ext (ht []) rfl

private theorem fill_congr {decode decode' : Tagged → Reader η → Value × Reader η} (object : UInt64)
    {entries : List (Place × Tagged)} (h : ∀ e ∈ entries, ∀ r, decode e.2 r = decode' e.2 r)
    (r : Reader η) : fill decode object entries r = fill decode' object entries r := by
  induction entries generalizing r with
  | nil => rfl
  | cons e rest ih =>
    rw [fill, fill, h e (List.mem_cons_self ..)]
    exact ih (fun e he => h e (List.mem_cons_of_mem _ he)) _

variable (hobjects : new.objects = old.objects)
  (h : ∀ t ∈ old.entries, t.MeansAlike old new recorded values)

include hobjects h

private theorem materializeWithin_congr (depth i : Nat) (r : Reader η) :
    materializeWithin new values depth i r = materializeWithin old recorded depth i r := by
  have hvirtuals : new.virtuals = old.virtuals := congrArg Prod.fst hobjects
  induction depth generalizing i r with
  | zero => rw [materializeWithin_eq, materializeWithin_eq]
  | succ depth ih =>
    rw [materializeWithin_eq, materializeWithin_eq, hvirtuals]
    cases r.cache.get? i with
    | some object => rfl
    | none =>
      cases hinfo : old.virtuals[i]? with
      | none => rfl
      | some info =>
        dsimp only
        rw [fill_congr _ fun e he => decodeWith_congr (h e.2 ?_) ih]
        exact List.mem_append_left _ (List.mem_flatMap.mpr
          ⟨info, List.mem_of_getElem? hinfo, List.mem_map_of_mem he⟩)

theorem materialize_congr (i : Nat) (r : Reader η) :
    materialize new values i r = materialize old recorded i r := by
  have hvirtuals : new.virtuals = old.virtuals := congrArg Prod.fst hobjects
  rw [materialize, materialize, hvirtuals]
  exact materializeWithin_congr hobjects h _ i r

theorem materializeAll_congr (r : Reader η) :
    materializeAll new values r = materializeAll old recorded r := by
  have hvirtuals : new.virtuals = old.virtuals := congrArg Prod.fst hobjects
  simp only [materializeAll, hvirtuals, materialize_congr hobjects h]

private theorem decode_congr {t : Tagged} (ht : t ∈ old.entries) (r : Reader η) :
    decode new values t r = decode old recorded t r :=
  decodeWith_congr (h t ht) (materialize_congr hobjects h) r

theorem applyPending_congr (r : Reader η) :
    applyPending new values r = applyPending old recorded r := by
  have hpending : new.pending = old.pending := congrArg Prod.snd hobjects
  rw [applyPending, applyPending, hpending]
  refine List.foldl_ext _ _ _ fun r w hw => ?_
  have hentry (t : Tagged) (ht : t ∈ [w.target, w.value]) : t ∈ old.entries :=
    List.mem_append_right _ (List.mem_flatMap.mpr ⟨w, hw, ht⟩)
  simp only [applyPendingWrite, decode_congr hobjects h (hentry w.target (by simp)),
    decode_congr hobjects h (hentry w.value (by simp))]

theorem force_congr (heap : η) : force new values heap = force old recorded heap := by
  have hvirtuals : new.virtuals = old.virtuals := congrArg Prod.fst hobjects
  rw [force, force, applyPending_congr hobjects h, materializeAll_congr hobjects h, start, start,
    hvirtuals]

end Reader

section Guards

variable {ρ ρ' : Env} {slots emitted : List (Option Var)} {old new : ResumeData}

/--
The slots of an emitted guard: where there is still a variable, it has the value of the recorded
one.
-/
structure SlotsFollow (ρ ρ' : Env) (slots emitted : List (Option Var)) : Prop where
  length : emitted.length = slots.length
  value : ∀ (i : Nat) (v : Var), emitted[i]? = some (some v) →
    ∃ w, slots[i]? = some (some w) ∧ ρ' v.id = ρ w.id

private theorem slotsFollow_of_meaning {t : Forwarding}
    (hemitted : emitted = (NumberedSlots.ofSlots t slots).boxes)
    (hvalues : (slots.map (NumberedSlots.meaning t)).map (fun a => (a.map (·.eval ρ')).getD .null) =
      slots.map ρ.slotValue) : SlotsFollow ρ ρ' slots emitted := by
  rw [NumberedSlots.boxes_ofSlots] at hemitted
  refine ⟨by rw [hemitted, List.length_map], fun i v hv => ?_⟩
  rw [hemitted, List.getElem?_map, Option.map_eq_some_iff] at hv
  obtain ⟨slot, hslot, hv⟩ := hv
  obtain ⟨a, ha, hav⟩ := Option.bind_eq_some_iff.mp hv
  have hvalue := congrArg (·[i]?) hvalues
  simp only [List.getElem?_map, hslot, Option.map_some, ha, Option.some.injEq,
    Option.getD_some] at hvalue
  cases slot with
  | none => cases ha
  | some w =>
    cases a with
    | const c => cases hav
    | var u =>
      cases hav
      exact ⟨w, hslot, hvalue⟩

theorem Tagged.StaysIn.meansAlike {t : Tagged} (h : t.StaysIn old new emitted)
    (hfollows : SlotsFollow ρ ρ' slots emitted) {values recorded : List Value}
    (hvalues : FrameHolds ρ' emitted values) (hrecorded : FrameHolds ρ slots recorded) :
    t.MeansAlike old new recorded values := by
  intro cache
  cases t with
  | box i =>
    obtain ⟨v, hv⟩ := h
    obtain ⟨w, hw, heq⟩ := hfollows.value i v hv
    rw [ResumeData.meaning, ResumeData.meaning, hvalues i v hv, hrecorded i w hw, heq]
  | const i => exact h
  | _ => rfl

private theorem Tagged.staysIn_of_meansAlike {t : Tagged} (hfollows : SlotsFollow ρ ρ' slots emitted)
    (hnames : ∀ i, t = .box i → ∃ w, slots[i]? = some (some w))
    (h : ∀ values recorded, FrameHolds ρ' emitted values → FrameHolds ρ slots recorded →
      t.MeansAlike old new recorded values) : t.StaysIn old new emitted := by
  have hframe (ρ : Env) (slots : List (Option Var)) : FrameHolds ρ slots (slots.map ρ.slotValue) := by
    intro i v hv
    rw [List.getElem?_map, hv]
    rfl
  cases t with
  | box i =>
    obtain ⟨w, hw⟩ := hnames i rfl
    have hlt : i < emitted.length := hfollows.length ▸ (List.getElem?_eq_some_iff.mp hw).1
    have hlt' : i < (emitted.map ρ'.slotValue).length := by rwa [List.length_map]
    cases hslot : emitted[i] with
    | some v => exact ⟨v, by rw [List.getElem?_eq_getElem hlt, hslot]⟩
    | none =>
      -- what the frame has in the empty slot is not the recorded value
      obtain ⟨x, hx⟩ : ∃ x, x ≠ ρ w.id := by
        by_cases hvoid : ρ w.id = .void
        · exact ⟨.null, by rw [hvoid]; nofun⟩
        · exact ⟨.void, fun heq => hvoid heq.symm⟩
      have hvalues : FrameHolds ρ' emitted ((emitted.map ρ'.slotValue).set i x) := by
        intro j v hv
        rw [List.getElem?_set_ne fun heq => ?_]
        · exact hframe ρ' emitted j v hv
        · rw [← heq, List.getElem?_eq_getElem hlt, hslot] at hv
          cases hv
      have halike := h _ _ hvalues (hframe ρ slots) []
      rw [ResumeData.meaning, ResumeData.meaning, List.getElem?_set_self hlt',
        hframe ρ slots i w hw] at halike
      exact absurd halike hx
  | const i => exact h _ _ (hframe ρ' emitted) (hframe ρ slots) []
  | _ => trivial

end Guards

theorem PassKind.optimize_objects {kind : PassKind}
    (hkind : ∀ closing state, kind ≠ .peeled closing state) {s : PassSettings} {registry : Registry}
    {inputs : List Var} {ops : List Operation} {p p' : Pass} {result : Optimized}
    (hrun : runFrom (kind.optimize s registry inputs ops) p = (.ok result, p')) {g : Guard}
    (hg : g.id < p.shared.guards.records.length) :
    (p'.shared.guards.get g).data.objects = (p.shared.guards.get g).data.objects := by
  obtain ⟨last, tail, hrun, -, -⟩ := PassKind.optimize_eq_ok hkind hrun
  have hgrows := (Pass.run_grows s ops p).1
  rw [hrun] at hgrows
  exact hgrows.objects g hg

private theorem ownGuard?_of_emitsFor {s : PassSettings} {p : Pass}
    {before after pre : List Operation} {r e : Operation} {g : Guard}
    (h : Pass.EmitsFor s p before r pre e) (hown : OwnGuards p.shared.guards (before ++ r :: after))
    (hguard : e.isGuard = true) (hdescr : e.descr = some (.guard g))
    (hg : g.id < p.shared.guards.records.length) : r.ownGuard? = some g := by
  obtain ⟨q, q', hq, -, hstep, hq'⟩ := h
  have hgrows := (Pass.run_grows s before p).1
  rw [hq] at hgrows
  have hlt (g : Guard) (hg : r.ownGuard? = some g) : g.id < q.shared.guards.records.length := by
    obtain ⟨hr, hg⟩ := ownGuard?_eq_some.mp hg
    exact Nat.lt_of_lt_of_le (hown.lt g (mem_guardsIn.mpr ⟨r, by simp, hr, hg⟩)) hgrows.length_le
  have he : e.ownGuard? = some g := ownGuard?_eq_some.mpr ⟨hguard, by rw [Operation.guard?, hdescr]; rfl⟩
  cases Pass.step_emits hlt hstep with
  | nothing hout =>
    rw [hq'] at hout
    simp at hout
  | plain e' hout _ hnone =>
    obtain rfl : e = e' := by simpa [hq'] using hout
    rw [he] at hnone
    cases hnone
  | guard e' g' hout _ hg' hgives =>
    obtain rfl : e = e' := by simpa [hq'] using hout
    cases he.symm.trans hg'
    rcases hgives.origin with ⟨-, hr⟩ | hle
    · exact hr
    · exact absurd (Nat.lt_of_lt_of_le hg hgrows.length_le) (Nat.not_lt.mpr hle)

/--
An emitted guard has the virtual objects and the delayed writes that have been recorded for it.
Wherever an execution reaches it, the entries that mean in every frame of the emitted slots what
they have meant in the frames of the recorded ones are those that refer to a variable still handed
over, or to a constant that the new pool has at the same place. If all entries do, both frames
give the same objects and the same writes.
-/
theorem PassKind.optimize_carries (kind : PassKind)
    (hkind : ∀ closing state, kind ≠ .peeled closing state) (driver : Nat) (opts : OptSet)
    (memo : PureMemo) (registry : Registry) (shared : OptState) (inputs : List Var)
    (ops : List Operation) (hscoped : Scoped inputs ops) (hown : OwnGuards shared.guards ops)
    {result : Optimized} {p' : Pass}
    (hrun : runFrom (kind.optimize { driver, opts, memo } registry inputs ops) (.ofShared shared) =
      (.ok result, p'))
    {pre post : List Operation} {e : Operation} {g : Guard}
    (hout : result.operations = pre ++ e :: post) (hguard : e.isGuard = true)
    (hdescr : e.descr = some (.guard g)) (hrecorded : g ∈ guardsIn ops) :
    let old := (shared.guards.get g).data
    let new := (p'.shared.guards.get g).data
    new.objects = old.objects ∧ ∃ before r after, ops = before ++ r :: after ∧
      r.ownGuard? = some g ∧
      Pass.EmitsFor { driver, opts, memo } (.ofShared shared) before r pre e ∧
      ∀ (σ : Type) (M : Machine σ) (ρ ρ' : Env) (st st' : σ),
        M.through memo pre ρ st = some (ρ', st') →
        ∃ ρr, M.through memo before ρ st = some (ρr, st') ∧
          (∀ t : Tagged, (∀ i, t = .box i → ∃ w, r.failSlots[i]? = some (some w)) →
            (t.StaysIn old new e.failSlots ↔ ∀ values recorded, FrameHolds ρ' e.failSlots values →
              FrameHolds ρr r.failSlots recorded → t.MeansAlike old new recorded values)) ∧
          ((∀ t ∈ old.entries, t.StaysIn old new e.failSlots) →
            ∀ values recorded, FrameHolds ρ' e.failSlots values →
              FrameHolds ρr r.failSlots recorded → ∀ (η : Type) [VirtualHeap η],
              (∀ r : Reader η, r.materializeAll new values = r.materializeAll old recorded ∧
                r.applyPending new values = r.applyPending old recorded) ∧
              ∀ heap : η, Reader.force new values heap = Reader.force old recorded heap) := by
  intro old new
  have hobjects : new.objects = old.objects :=
    PassKind.optimize_objects hkind hrun (hown.lt g hrecorded)
  obtain ⟨before, r, after, q, q', f, hops, hemits, hstep, hq', htq, -, hreach⟩ :=
    PassKind.exists_step_of_guard hkind rfl hscoped hown hrun hout hguard hdescr
  have hr : r.ownGuard? = some g :=
    ownGuard?_of_emitsFor hemits (hops ▸ hown) hguard hdescr (hown.lt g hrecorded)
  refine ⟨hobjects, before, r, after, hops, hr, hemits, fun σ M ρ ρ' st st' hthrough => ?_⟩
  obtain ⟨ρr, hreaches, hagrees⟩ := hreach σ M ρ ρ' st st' hthrough
  obtain ⟨hslots, hvalues⟩ := slots_of_stepped hagrees htq rfl hstep hq' hguard hdescr
  have hfollows := slotsFollow_of_meaning hslots hvalues
  refine ⟨ρr, hreaches, fun t hnames => ⟨fun h values recorded => h.meansAlike hfollows,
    t.staysIn_of_meansAlike hfollows hnames⟩, fun h values recorded hframe hframe' η _ => ?_⟩
  have halike (t : Tagged) (ht : t ∈ old.entries) : t.MeansAlike old new recorded values :=
    (h t ht).meansAlike hfollows hframe hframe'
  exact ⟨fun r => ⟨r.materializeAll_congr hobjects halike, r.applyPending_congr hobjects halike⟩,
    Reader.force_congr hobjects halike⟩

/-- A node that is to be built behind a guard: it has the second fail argument, and is its own next. -/
def linkedNode : ResumeData where
  virtuals := [.struct ⟨1, 16⟩
    [(⟨"value", .int, 8⟩, .box 1), (⟨"next", .ref, 16⟩, .virtual 0)]]
  pending := [⟨.virtual 0, ⟨"value", .int, 8⟩, none, .int 3⟩]

/-- The second fail argument is still a variable where the guard is left, so the node is built. -/
theorem PassKind.optimize_carries_linkedNode :
    let x : Var := ⟨0, .int⟩
    let y : Var := ⟨1, .int⟩
    let g : Guard := ⟨0, .guardTrue, .plain⟩
    let guard : Operation := { opcode := .guardTrue, args := [.var x]
                               failArgs := some [none, some y], descr := some (.guard g) }
    let ops : List Operation := [guard, { opcode := .finish, descr := some (.final .doneVoid) }]
    let shared : OptState := { counter := .ofBits 4, guards := ⟨[{ data := linkedNode }]⟩ }
    let walked := runFrom (PassKind.simple.optimize { driver := 0, opts := .all } {} [x, y] ops)
      (.ofShared shared)
    let new := (walked.2.shared.guards.get g).data
    Scoped [x, y] ops ∧ OwnGuards shared.guards ops ∧ g ∈ guardsIn ops ∧
      (∀ t ∈ linkedNode.entries, t.StaysIn linkedNode new guard.failSlots) ∧
      new.numbering = [.null, .box 1] ∧
      ∀ (η : Type) [VirtualHeap η] (heap : η),
        Reader.force new [.void, .int 7] heap = Reader.force linkedNode [.null, .int 7] heap := by
  intro x y g guard ops shared walked new
  have hscoped : Scoped [x, y] ops := by decide
  have hown : OwnGuards shared.guards ops := by decide
  have hrecorded : g ∈ guardsIn ops := by decide
  have hrun : walked = (.ok { inputs := [x, y], operations := ops, deps := [] }, walked.2) := rfl
  have hout : ops = [] ++ guard :: [{ opcode := .finish, descr := some (.final .doneVoid) }] := rfl
  have hstays : ∀ t ∈ linkedNode.entries, t.StaysIn linkedNode new guard.failSlots := by decide
  obtain ⟨-, before, r, after, hops, hr, -, hreach⟩ :=
    PassKind.optimize_carries .simple (fun _ _ h => by cases h) 0 .all .empty {} shared [x, y] ops
      hscoped hown hrun hout rfl rfl hrecorded
  let M : Machine Unit :=
    ⟨true, fun _ _ => .void, fun _ _ _ => some .void, fun _ _ _ st => (.void, st)⟩
  let ρ : Env := fun _ => .int 7
  obtain ⟨ρr, hthrough, -, hforce⟩ := hreach Unit M ρ ρ () () rfl
  obtain ⟨rfl, rfl⟩ : before = [] ∧ r = guard := by
    rcases before with _ | ⟨first, _ | ⟨second, before⟩⟩
    · exact ⟨rfl, (List.cons.inj hops).1.symm⟩
    · obtain rfl := (List.cons.inj (List.cons.inj hops).2).1
      cases hr
    · simp [ops] at hops
  cases hthrough
  have hframe {values : List Value} (h : values[1]? = some (.int 7)) :
      FrameHolds ρ guard.failSlots values := by
    intro i v hv
    match i, hv with
    | 1, hv =>
      cases hv
      exact h
  refine ⟨hscoped, hown, hrecorded, hstays, rfl, fun η _ heap => ?_⟩
  exact (hforce hstays _ _ (hframe rfl) (hframe rfl) η).2 heap

/--
The constant that a virtual object refers to is dropped with the pool of the guard. The object has
no value in the field where 42 has been recorded.
-/
theorem PassKind.optimize_drops_pooledConstant :
    let g : Guard := ⟨0, .guardTrue, .plain⟩
    let old : ResumeData :=
      { consts := [.int 42], virtuals := [.struct ⟨1, 16⟩ [(⟨"value", .int, 8⟩, .const 0)]] }
    let guard : Operation := { opcode := .guardTrue, args := [.var ⟨0, .int⟩]
                               failArgs := some [], descr := some (.guard g) }
    let ops : List Operation := [guard, { opcode := .finish, descr := some (.final .doneVoid) }]
    let shared : OptState := { counter := .ofBits 4, guards := ⟨[{ data := old }]⟩ }
    let walked := runFrom
      (PassKind.simple.optimize { driver := 0, opts := .all } {} [⟨0, .int⟩] ops) (.ofShared shared)
    let new := (walked.2.shared.guards.get g).data
    let value (data : ResumeData) : Option Value :=
      (Reader.force data [] ({} : Arena)).heap.field? (Arena.addressOf 0) "value"
    Scoped [⟨0, .int⟩] ops ∧ OwnGuards shared.guards ops ∧
      walked.1.toOption.map (·.operations) = some ops ∧
      FrameHolds (fun _ => .int 1) guard.failSlots [] ∧
      value old = some (.int 42) ∧ value new = some .void := by
  refine ⟨by decide, by decide, rfl, fun i v hv => ?_, by decide +kernel, by decide +kernel⟩
  simp [Operation.failSlots] at hv

end HotLoop
