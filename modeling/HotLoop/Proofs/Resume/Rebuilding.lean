import HotLoop.Proofs.Walk.Emission

/-!
# Rebuilding the interpreter from a frame

When compiled code leaves through a guard, the frame has the values of the fail arguments that the
guard has been emitted with. Read with the resume data of the guard it gives the values that the
recorded fail arguments have in the recorded execution. The slot whose values the guard counts is
the one with the compared value.
-/

namespace HotLoop

def Env.slotValue (ρ : Env) (slot : Option Var) : Value := (slot.map fun v => ρ v.id).getD .null

/-- The frame has the values of the variables in the slots, and anything in the other slots. -/
def FrameHolds (ρ : Env) (slots : List (Option Var)) (values : List Value) : Prop :=
  ∀ (i : Nat) (v : Var), slots[i]? = some (some v) → values[i]? = some (ρ v.id)

namespace Reader

variable {η : Type} [VirtualHeap η] {data : ResumeData} {n : NumberedSlots} {values : List Value}
  {ρ : Env}

theorem decode_of_names {tag : Tagged} {a : Option Arg} (h : n.Names tag a)
    (hconsts : data.consts = n.consts) (hframe : FrameHolds ρ n.boxes values) (r : Reader η) :
    decode data values tag r = ((a.map (·.eval ρ)).getD .null, r) := by
  cases h with
  | null => rfl
  | box h => rw [decode, decodeWith, hframe _ _ h]; rfl
  | const h => rw [decode, decodeWith, hconsts, h]; rfl

theorem decodeList_of_names {tags : List Tagged} {as : List (Option Arg)}
    (h : List.Forall₂ n.Names tags as) (hconsts : data.consts = n.consts)
    (hframe : FrameHolds ρ n.boxes values) (r : Reader η) :
    decodeList data values tags r = (as.map fun a => (a.map (·.eval ρ)).getD .null, r) := by
  induction h with
  | nil => rfl
  | cons hname _ ih =>
    simp only [decodeList, decode_of_names hname hconsts hframe, ih, List.map_cons]

end Reader

section Guards

variable {σ η : Type} {M : Machine σ} {s : PassSettings} {p p' q q' : Pass} {f : Lifetimes}
  {r e : Operation} {ops : List Operation} {args : List Arg} {ρ ρ' : Env} {values : List Value}
  {g : Guard}

private theorem slotValues_eq (h : Agrees q.forwarding f ρ ρ') (ht : Tracks s q f (r :: ops) args)
    {op' : Operation} {deps : FieldSet} {guarded : Bool}
    (hfate : fate s q.guarded (q.forwarding.apply r) = .ok (.keep op'))
    (hkeeps : Pass.Keeps s { q with deps, guarded } q' op' r.failSlots q.forwarding e) :
    (r.failSlots.map (NumberedSlots.meaning q.forwarding)).map
        (fun a => (a.map (·.eval ρ')).getD .null) = r.failSlots.map ρ.slotValue := by
  have hvalues := congrArg (List.map (·.getD Value.null)) (h.exitValues ht hfate hkeeps)
  simpa [Machine.exitValues, Function.comp_def, Env.slotValue] using hvalues

private theorem eval_head_args (h : Agrees q.forwarding f ρ ρ') (ht : Tracks s q f (r :: ops) args)
    {op' : Operation} {t : Forwarding} {deps : FieldSet} {guarded : Bool}
    (hfate : fate s q.guarded (q.forwarding.apply r) = .ok (.keep op'))
    (hkeeps : Pass.Keeps s { q with deps, guarded } q' op' r.failSlots t e)
    (hop : e.opcode = .guardValue) {v : Var} (hv : e.args.head? = some (.var v)) :
    r.args.head?.map (·.eval ρ) = some (ρ' v.id) := by
  have hargs : e.args = (q.forwarding.apply r).args := by
    rcases keep_cases hfate with ⟨rfl, -, -⟩ | ⟨-, rfl⟩
    · exact hkeeps.args
    · rw [hkeeps.opcode] at hop
      cases hop
  rw [← List.head?_map, ← h.eval_args ht, ← hargs, List.head?_map, hv]
  rfl

/--
What the record of the guard `g`, emitted as `e` for the recorded operation `r`, says about a frame:
its slots have the values that the recorded ones have in `ρ`, and the compared value is found where
the guard counts.
-/
structure Rebuilds (record : GuardRecord) (e r : Operation) (ρ : Env) (values : List Value) :
    Prop where
  frame : ∀ (η : Type) [VirtualHeap η] (reader : Reader η),
    Reader.readFrame record.data values reader = (r.failSlots.map ρ.slotValue, reader)
  index : e.opcode = .guardValue → ∀ v, e.args.head? = some (.var v) → some v ∈ e.failSlots →
    ∃ i x, record.valueIndex? = some i ∧ values[i]? = some x ∧
      r.args.head?.map (·.eval ρ) = some x

private theorem keeps_of_stepped (hplain : s.renames = false) (hstep : Pass.Stepped s q q' r)
    (hout : q'.out = q.out ++ [e]) : ∃ op' deps,
      fate s q.guarded (q.forwarding.apply r) = .ok (.keep op') ∧
      Pass.Keeps s { q with deps, guarded := q.guarded || r.guardsFields } q' op' r.failSlots
        q.forwarding e := by
  obtain ⟨op', u, deps, hfate, hkeeps⟩ := hstep.kept hout
  obtain rfl : u = q.forwarding := by
    rcases hkeeps.renamed with ⟨hren, -⟩ | ⟨-, -, hu, -⟩
    · rw [hplain] at hren
      cases hren
    · exact hu
  exact ⟨op', deps, hfate, hkeeps⟩

/-- An emitted guard hands over the variables that its recorded slots mean, with their values. -/
theorem slots_of_stepped (h : Agrees q.forwarding f ρ ρ') (ht : Tracks s q f (r :: ops) args)
    (hplain : s.renames = false) (hstep : Pass.Stepped s q q' r) (hout : q'.out = q.out ++ [e])
    (hguard : e.isGuard = true) (hdescr : e.descr = some (.guard g)) :
    e.failSlots = (NumberedSlots.ofSlots q.forwarding r.failSlots).boxes ∧
      (r.failSlots.map (NumberedSlots.meaning q.forwarding)).map
        (fun a => (a.map (·.eval ρ')).getD .null) = r.failSlots.map ρ.slotValue := by
  obtain ⟨op', deps, hfate, hkeeps⟩ := keeps_of_stepped hplain hstep hout
  refine ⟨?_, slotValues_eq h ht hfate hkeeps⟩
  have hfinishes := hkeeps.finishes (by rw [Operation.isGuard, ← hkeeps.opcode]; exact hguard)
  rw [Operation.failSlots, hfinishes.slots fun x hx => ?_]
  · rfl
  · have heq := hfinishes.final x hx
    rw [heq, hx] at hdescr
    cases hdescr

theorem rebuilds_of_files (h : Agrees q.forwarding f ρ ρ') (ht : Tracks s q f (r :: ops) args)
    (hplain : s.renames = false) (hstep : Pass.Stepped s q q' r) (hout : q'.out = q.out ++ [e])
    (hguard : e.isGuard = true) (hdescr : e.descr = some (.guard g)) {t : GuardTable}
    (hfiles : t.Files g e (NumberedSlots.ofSlots q.forwarding r.failSlots))
    (hframe : FrameHolds ρ' e.failSlots values) : Rebuilds (t.get g) e r ρ values := by
  obtain ⟨op', deps, hfate, hkeeps⟩ := keeps_of_stepped hplain hstep hout
  obtain ⟨hslots, hvalues⟩ := slots_of_stepped h ht hplain hstep hout hguard hdescr
  refine ⟨fun η _ reader => ?_, fun hop v hv hmem => ?_⟩
  · rw [Reader.readFrame, hfiles.numbering,
      Reader.decodeList_of_names (NumberedSlots.names_ofSlots ..) hfiles.consts (hslots ▸ hframe),
      hvalues]
  · obtain ⟨i, hi, hslot⟩ := hfiles.index hop v hv hmem
    exact ⟨i, _, hi, hframe i v hslot, eval_head_args h ht hfate hkeeps hop hv⟩

end Guards

private theorem eq_append_of_isGuard {out tail pre post : List Operation} {e : Operation}
    (h : out ++ tail = pre ++ e :: post) (he : e.isGuard = true)
    (htail : ∀ op ∈ tail, op.isGuard = false) : ∃ post', out = pre ++ e :: post' := by
  rcases List.append_eq_append_iff.mp h with ⟨as, -, rfl⟩ | ⟨bs, rfl, hbs⟩
  · have hno := htail e (by simp)
    rw [he] at hno
    cases hno
  · cases bs with
    | nil =>
      rw [List.nil_append] at hbs
      have hno := htail e (by rw [← hbs]; exact List.mem_cons_self ..)
      rw [he] at hno
      cases hno
    | cons b bs =>
      cases hbs
      exact ⟨bs, rfl⟩

/--
Every guard that a walk without renaming has emitted has been emitted in a step for a recorded
operation. The numbered slots of that operation are on file in the end, and executions that reach
the guard reach the operation in a state that agrees.
-/
theorem PassKind.exists_step_of_guard {kind : PassKind}
    (hkind : ∀ closing state, kind ≠ .peeled closing state) {s : PassSettings}
    (hplain : s.renames = false) {registry : Registry} {shared : OptState} {inputs : List Var}
    {ops : List Operation} (hscoped : Scoped inputs ops) (hown : OwnGuards shared.guards ops)
    {result : Optimized} {p' : Pass}
    (hrun : runFrom (kind.optimize s registry inputs ops) (.ofShared shared) = (.ok result, p'))
    {pre post : List Operation} {e : Operation} {g : Guard}
    (hout : result.operations = pre ++ e :: post) (hguard : e.isGuard = true)
    (hdescr : e.descr = some (.guard g)) :
    ∃ before r after q q' f, ops = before ++ r :: after ∧
      Pass.EmitsFor s (.ofShared shared) before r pre e ∧
      Pass.Stepped s q q' r ∧ q'.out = q.out ++ [e] ∧ Tracks s q f (r :: after) [] ∧
      p'.shared.guards.Files g e (NumberedSlots.ofSlots q.forwarding r.failSlots) ∧
      ∀ (σ : Type) (M : Machine σ) (ρ ρ' : Env) (st st' : σ),
        M.through s.memo pre ρ st = some (ρ', st') →
        ∃ ρr, M.through s.memo before ρ st = some (ρr, st') ∧ Agrees q.forwarding f ρr ρ' := by
  obtain ⟨last, tail, hrun, hops, htail⟩ := PassKind.optimize_eq_ok hkind hrun
  obtain ⟨post', hout⟩ := eq_append_of_isGuard (hops.symm.trans hout) hguard htail
  obtain ⟨before, r, after, q, q', rfl, hbefore, hr, hq, hpre, hstep, hq', hafter⟩ :=
    Pass.exists_step_of_run hrun (p := .ofShared shared) hout
  have ht := tracks_ofInputs (s := s) shared hplain hscoped []
  obtain ⟨htq, code, hcode, -, hadvances⟩ := Advances.of_run hq hbefore ht 0
  have hfiles := Pass.files_of_run hown hplain rfl hq hstep hq' hafter hguard hdescr
  refine ⟨before, r, after, q, q', _, rfl, ⟨q, q', hq, hpre, hstep, hq'⟩, Pass.step_eq_ok hstep,
    hq', htq, hfiles, ?_⟩
  intro σ M ρ ρ' st st' hthrough
  have hpre : pre = code.map (·.op) := hpre.symm.trans hcode
  rw [hpre] at hthrough
  obtain ⟨ρr, hreaches, hagrees⟩ :=
    hadvances.through (fun hyes => by cases hyes) (agrees_ofInputs inputs ρ) hthrough
  rw [map_op_sites] at hreaches
  exact ⟨ρr, hreaches, hagrees⟩

/--
Every guard that a walk without renaming has emitted stands for a recorded operation. Wherever an
execution of the output reaches the guard, the recorded execution reaches that operation in the same
state, and the final record of the guard rebuilds the recorded slots from any frame that has the
values of the fail arguments.
-/
theorem PassKind.optimize_rebuilds (kind : PassKind)
    (hkind : ∀ closing state, kind ≠ .peeled closing state) (driver : Nat) (opts : OptSet)
    (memo : PureMemo) (registry : Registry) (shared : OptState) (inputs : List Var)
    (ops : List Operation) (hscoped : Scoped inputs ops) (hown : OwnGuards shared.guards ops)
    {result : Optimized} {p' : Pass}
    (hrun : runFrom (kind.optimize { driver, opts, memo } registry inputs ops) (.ofShared shared) =
      (.ok result, p'))
    {pre post : List Operation} {e : Operation} {g : Guard}
    (hout : result.operations = pre ++ e :: post) (hguard : e.isGuard = true)
    (hdescr : e.descr = some (.guard g)) :
    ∃ before r after, ops = before ++ r :: after ∧
      Pass.EmitsFor { driver, opts, memo } (.ofShared shared) before r pre e ∧
      ∀ (σ : Type) (M : Machine σ) (ρ ρ' : Env) (st st' : σ),
        M.through memo pre ρ st = some (ρ', st') →
        ∃ ρr, M.through memo before ρ st = some (ρr, st') ∧
          ∀ values, FrameHolds ρ' e.failSlots values →
            Rebuilds (p'.shared.guards.get g) e r ρr values := by
  obtain ⟨before, r, after, q, q', f, hops, hemits, hstep, hq', htq, hfiles, hreach⟩ :=
    PassKind.exists_step_of_guard hkind rfl hscoped hown hrun hout hguard hdescr
  refine ⟨before, r, after, hops, hemits, fun σ M ρ ρ' st st' hthrough => ?_⟩
  obtain ⟨ρr, hreaches, hagrees⟩ := hreach σ M ρ ρ' st st' hthrough
  exact ⟨ρr, hreaches, fun values hframe =>
    rebuilds_of_files hagrees htq rfl hstep hq' hguard hdescr hfiles hframe⟩

/--
The second guard is reached with 5 for `x`, so the sum is 8 and a constant of the resume data; the
frame has the 3 that is compared with 7 in its last slot.
-/
theorem PassKind.optimize_rebuilds_knownSum :
    let x : Var := ⟨0, .int⟩
    let y : Var := ⟨1, .int⟩
    let sum : Var := ⟨2, .int⟩
    let first : Operation := {
      opcode := .guardValue, args := [.var x, .int 5], failArgs := some [some x, none]
      descr := some (.guard ⟨0, .guardValue, .plain⟩) }
    let second : Operation :=
      { opcode := .guardValue, args := [.var y, .int 7], failArgs := some [some sum, none, some y] }
    let ops : List Operation := [first,
      { opcode := .intAdd, args := [.var x, .int 3], result := some sum },
      second, { opcode := .finish, descr := some (.final .doneVoid) }]
    let g : Guard := ⟨1, .guardValue, .plain⟩
    let emitted : Operation :=
      { second with failArgs := some [none, none, some y], descr := some (.guard g) }
    let shared : OptState := { counter := .ofBits 4, guards := ⟨[{}]⟩ }
    let s : PassSettings := { driver := 0, opts := .all }
    let walked := runFrom (PassKind.simple.optimize s {} [x, y] ops) (.ofShared shared)
    let M : Machine Unit :=
      ⟨true, fun _ _ => .void, fun _ _ _ => some .void, fun _ _ _ st => (.void, st)⟩
    let ρ : Env := fun i => if i = 0 then .int 5 else .int 3
    Scoped [x, y] ops ∧ OwnGuards shared.guards ops ∧
      ∃ before r after, ops = before ++ r :: after ∧
        Pass.EmitsFor s (.ofShared shared) before r [first] emitted ∧
        ∃ ρr, M.through .empty before ρ () = some (ρr, ()) ∧
          Rebuilds (walked.2.shared.guards.get g) emitted r ρr [.void, .void, .int 3] := by
  intro x y sum first second ops g emitted shared s walked M ρ
  have hscoped : Scoped [x, y] ops := by decide
  have hown : OwnGuards shared.guards ops := by decide
  have hrun : walked = (.ok {
      inputs := [x, y], deps := []
      operations := [first, emitted, { opcode := .finish, descr := some (.final .doneVoid) }] },
      walked.2) := rfl
  have hout : [first, emitted, { opcode := .finish, descr := some (.final .doneVoid) }] =
      [first] ++ emitted :: [{ opcode := .finish, descr := some (.final .doneVoid) }] := rfl
  obtain ⟨before, r, after, hops, hemits, hreach⟩ :=
    PassKind.optimize_rebuilds .simple (fun _ _ h => by cases h) 0 .all .empty {} shared [x, y] ops
      hscoped hown hrun hout rfl rfl
  obtain ⟨ρr, hthrough, hrebuilds⟩ := hreach Unit M ρ ρ () () rfl
  refine ⟨hscoped, hown, before, r, after, hops, hemits, ρr, hthrough, hrebuilds _ ?_⟩
  intro i v hv
  match i, hv with
  | 2, hv =>
    cases hv
    rfl

end HotLoop
