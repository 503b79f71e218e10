import HotLoop.Proofs.Compile.Origins
import HotLoop.Proofs.Replay.Linking

/-!
# Finding the guard of a failure

A failure names a guard by its label, and the guard is looked for by the resume position of the
label. Every guard in the code stands at the position of the operation that it comes from. But so
does every guard at the first position that comes from an operation without a label, or with a
quasi-immutable field; if the first operation has a label, such a guard may be found for it.
-/

namespace HotLoop

open Replay

/-- The operations of a file that may have labels that failures name. -/
def TraceFile.labelledOps (file : TraceFile) : List OpSpec := file.body ++ file.bridges.flatMap (·.ops)

section Labels

variable {file : TraceFile} {label : String} {position : Nat} {spec : OpSpec}

namespace Table

variable {κ α : Type} [DecidableEq κ] {l : List (κ × α)} {k : κ} {a : α}

theorem mem_of_get?_ofList (h : (ofList l).get? k = some a) : (k, a) ∈ l := by
  rw [get?_ofList] at h
  obtain ⟨e, he, rfl⟩ := Option.map_eq_some_iff.mp h
  obtain rfl : e.1 = k := by simpa using List.find?_some he
  exact List.mem_reverse.mp (List.mem_of_find?_eq_some he)

theorem isSome_get?_ofList (h : (k, a) ∈ l) : ∃ b, (ofList l).get? k = some b := by
  have hfound : (l.reverse.find? (·.1 = k)).isSome :=
    List.find?_isSome.mpr ⟨(k, a), List.mem_reverse.mpr h, by simp⟩
  obtain ⟨e, he⟩ := Option.isSome_iff_exists.mp hfound
  exact ⟨e.2, by rw [get?_ofList, he]; rfl⟩

end Table

namespace TraceFile

theorem label_of_position (h : file.guardPositions.get? label = some position) :
    ∃ spec, file.labelledOps[position]? = some spec ∧ spec.guard = some label := by
  obtain ⟨⟨spec, i⟩, hmem, hspec⟩ := List.mem_filterMap.mp (Table.mem_of_get?_ofList h)
  obtain ⟨l, hl, heq⟩ := Option.map_eq_some_iff.mp hspec
  cases heq
  exact ⟨spec, List.mem_zipIdx_iff_getElem?.mp hmem, hl⟩

theorem exists_position (hspec : spec ∈ file.labelledOps) (hlabel : spec.guard = some label) :
    ∃ position, file.guardPositions.get? label = some position := by
  obtain ⟨i, hi⟩ := List.mem_iff_getElem?.mp hspec
  refine Table.isSome_get?_ofList (a := i) (List.mem_filterMap.mpr ⟨(spec, i),
    List.mem_zipIdx_iff_getElem?.mpr hi, ?_⟩)
  exact congrArg (Option.map (·, i)) hlabel

theorem label_unique {label' : String} (h : file.guardPositions.get? label = some position)
    (h' : file.guardPositions.get? label' = some position) : label = label' := by
  obtain ⟨spec, hspec, hlabel⟩ := label_of_position h
  obtain ⟨spec', hspec', hlabel'⟩ := label_of_position h'
  cases hspec.symm.trans hspec'
  exact Option.some.inj (hlabel.symm.trans hlabel')

end TraceFile

end Labels

/--
A guard that the operation leaves stands at the first position, wherever the operation stands: there
is no label to tell, or no descriptor to tell it to.
-/
def Replay.OpSpec.isAdrift (spec : OpSpec) : Bool :=
  spec.op.leavesGuard && !(spec.ownsGuard && spec.guard.isSome)

section Walking

variable {file : TraceFile} {driver : Driver} {resumeKey : ResumeKey} {w : Workbench}
  {t t' : GuardTable} {code : List Operation} {g : Guard}

def Workbench.bridgeWalk (w : Workbench) : Walk :=
  ⟨w.settings w.enabled, .ofShared w.shared, w.session.history.operations⟩

/-- The walk over the loop of the file as it has been recorded again, behind the bridge of `w`. -/
inductive Replayer.WalksAgain (file : TraceFile) (resumeKey : ResumeKey) (w : Workbench) :
    Walk → Prop where
  | intro (w₁ w₂ : Workbench) (trace : Trace) (state : ExportedState) (inputs : List Var)
      (args : List Arg) (r : Recorder) (q : Pass)
      (hw₁ : w₁ = (runFrom (Workbench.compileTrace resumeKey) w).2)
      (hwaiting : w₁.session.waiting = some (trace, state))
      (hrecord : runFrom (recordAgain file w₁.session.driver inputs)
        { history := w₁.session.history, guards := w₁.context.guards } = (.ok args, r))
      (hw₂ : w₂ = ⟨{ w₁.context with guards := r.guards },
        { w₁.session with history := r.history }⟩)
      (henter : runFrom (Pass.enterLoop inputs state) (.ofShared w₂.shared) = (.ok (), q)) :
      WalksAgain file resumeKey w ⟨{ w₂.settings w₂.enabled with renames := true }, q,
        r.history.operations.drop w₁.session.history.operations.length⟩

/--
The guard `g` has been put out in one of the walks for the operation `spec` of those that have been
recorded. It stands there, if this has a label.
-/
structure StandsFor (positions : Table String Nat) (walks : Walk → Prop) (specs : List OpSpec)
    (t : GuardTable) (spec : OpSpec) (g : Guard) : Prop where
  origin : ∃ walk i, walks walk ∧ specs[i]? = some spec ∧ walk.PutsOut i g
  leaves : spec.op.leavesGuard = true
  lt : g.id < t.records.length
  position : (t.get g).data.position = spec.position positions

private theorem StandsFor.grows {positions : Table String Nat} {walks : Walk → Prop}
    {specs : List OpSpec} {spec : OpSpec} (h : StandsFor positions walks specs t spec g)
    (hgrows : t.Grows t') : StandsFor positions walks specs t' spec g :=
  ⟨h.origin, h.leaves, Nat.lt_of_lt_of_le h.lt hgrows.length_le,
    (hgrows.position g h.lt).trans h.position⟩

private theorem ComesFrom.standsFor {positions : Table String Nat} {walks : Walk → Prop}
    {specs : List OpSpec} {t₀ t₁ : GuardTable} {ops : List Operation}
    (h : ComesFrom walks t₁ t ops g) (hregisters : Recorder.Registers positions specs t₀ t₁ ops) :
    ∃ spec, StandsFor positions walks specs t spec g := by
  obtain ⟨walk, i, r, hwalk, hr, hputs, hleaves, hlt, hposition⟩ := h
  obtain ⟨hi, hget⟩ := List.getElem?_eq_some_iff.mp hr
  obtain ⟨hlength, hplaces⟩ := List.forall₂_iff_get.mp hregisters.places
  have hi' : i < specs.length := hlength.symm ▸ hi
  obtain ⟨hopcode, -, hplace⟩ := hplaces i hi' hi
  simp only [List.get_eq_getElem, hget] at hopcode hplace
  refine ⟨specs[i], ⟨walk, i, hwalk, List.getElem?_eq_getElem hi', hputs⟩, hopcode ▸ hleaves, hlt,
    hposition.trans hplace⟩

private theorem Replayer.RecordsBridge.standsFor {frame : DeadFrame} {c : Context}
    {bridge : BridgeSpec} (hrecords : RecordsBridge file driver g frame c bridge w)
    (hcode : BridgeCode file resumeKey w t code) {g' : Guard} (hg' : g' ∈ guardsIn code) :
    (∃ spec, StandsFor file.guardPositions (· = w.bridgeWalk) bridge.ops t spec g') ∨
      ∃ spec, StandsFor file.guardPositions (WalksAgain file resumeKey w) file.body t spec g' := by
  obtain ⟨history, r, hrecord, hw⟩ := hrecords.recorded
  obtain ⟨ops, closing, hhistory, hclosing, hregisters, -⟩ := Recorder.recordBridge_registers hrecord
  have hops : w.session.history.operations = ops ++ [closing] := by
    rw [hw]
    exact hhistory
  have hguards : w.context.guards = r.guards := by rw [hw]
  have hown : OwnGuards w.context.guards w.session.history.operations := by
    rw [hops, hguards]
    exact hregisters.own.append fun op hop => by
      rw [List.mem_singleton.mp hop]
      exact hclosing.not_isGuard
  -- the guards of the first walk, whatever has come behind it
  have hfirst {result : Optimized} {p : Pass}
      (hwalk : runFrom (w.tracePass resumeKey (w.settings w.enabled)) (.ofShared w.shared) =
        (.ok result, p)) (hg' : g' ∈ guardsIn result.operations) :
      ∃ spec, StandsFor file.guardPositions (· = w.bridgeWalk) bridge.ops p.shared.guards spec g' := by
    have hcomes := Workbench.comesFrom_of_tracePass hown hwalk hg'
    have hcomes' : ComesFrom (· = w.bridgeWalk) r.guards p.shared.guards (ops ++ [closing]) g' := by
      rw [← hguards, ← hops]
      exact hcomes
    exact (hcomes'.dropLast hclosing.1).standsFor hregisters
  cases hcode with
  | direct result p hwalk ht => exact .inl (ht ▸ hfirst hwalk hg')
  | retraced first p₁ w₁ w₂ inputs args r' unit state result p header hwalk hw₁ hguards₁ hwaiting
      hagain hw₂ hwalk' hheader ht =>
    obtain ⟨trace, hwaiting⟩ := hwaiting
    obtain ⟨again, hoperations, hregisters', -⟩ := Recorder.recordAgain_registers hagain
    obtain ⟨header', q, q', hpeels⟩ := Pass.peels_of_peeled hwalk'
    cases hpeels.isHeader.symm.trans hheader
    have hshared : w₂.shared.guards = r'.guards := by rw [hw₂]; rfl
    have hgrows := (Pass.peeled_grows (w₂.settings w₂.enabled) (.ofShared w₂.shared) inputs
      (.jump args (.cell unit)) (r'.history.operations.drop w₁.session.history.operations.length)
      state).1
    rw [hwalk'] at hgrows
    have hdrop : r'.history.operations.drop w₁.session.history.operations.length = again := by
      rw [hoperations, List.drop_left]
    have hcopies : guardsIn (header.copies ++ [header.label]) = [] := by
      rw [guardsIn_append, guardsIn_eq_nil fun op hop => (hpeels.copies op hop).1]
      rfl
    rw [List.append_assoc first.operations, guardsIn_append, guardsIn_append, hcopies,
      List.append_nil] at hg'
    rcases List.mem_append.mp hg' with hg' | hg'
    · obtain ⟨spec, hstands⟩ := hfirst hwalk hg'
      have hlater : p₁.shared.guards.Grows t := by
        rw [← hguards₁, ← ht]
        refine hregisters'.grows.trans ?_
        rw [← hshared]
        exact hgrows
      exact .inl ⟨spec, hstands.grows hlater⟩
    · have hown' : OwnGuards w₂.shared.guards
          (r'.history.operations.drop w₁.session.history.operations.length) := by
        rw [hdrop, hshared]
        exact hregisters'.own
      obtain ⟨q₂, henter, hcomes⟩ := Pass.peeled_comesFrom (p := .ofShared w₂.shared) rfl rfl hown'
        hwalk' hg'
      have hcomes' := hcomes.mono (WalksAgain file resumeKey w) fun walk hwalk => by
        rw [hwalk]
        exact .intro w₁ w₂ trace state inputs args r' q₂ hw₁ hwaiting hagain hw₂ henter
      have hshared' : (Pass.ofShared w₂.shared).shared.guards = r'.guards := hshared
      rw [hdrop, hshared', ht] at hcomes'
      exact .inr (hcomes'.standsFor hregisters')

end Walking

namespace TraceFile

variable {file : TraceFile} {config : Config} {addresses : Nat → UInt64} {unit : UnitHandle}
  {run run' : Run} {done : List Event} {event : Event} {specs : List OpSpec} {walk : Walk}
  {t : GuardTable} {c c' : Context} {g : Guard} {label : String}

/--
At a point of the replay, the guard `g` has been found for the failure that comes next, and `bridge`
has been recorded behind it in the session of `w`.
-/
inductive TracesFrom (file : TraceFile) (config : Config) (addresses : Nat → UInt64)
    (unit : UnitHandle) (g : Guard) (bridge : BridgeSpec) (w : Workbench) : Prop where
  | intro (done : List Event) (run : Run) (failure : FailureSpec) (position : Nat)
      (hreached : file.Reaches config addresses unit done run)
      (hnext : done ++ [.fail failure] <+: file.events)
      (hposition : file.guardPositions.get? failure.guard = some position)
      (hfind : Run.findGuard? run.context unit position = some g)
      (hrecords : let frame : DeadFrame := { descr := .guard g, values := failure.values }
        Replayer.RecordsBridge file file.jitDriver g frame
          ((run.context.countFailure file.jitDriver g frame).2.startTracing g) bridge w)

/-- A walk of the replay, over what has been recorded for operations of the file. -/
inductive Walked (file : TraceFile) (config : Config) (addresses : Nat → UInt64)
    (unit : UnitHandle) : List OpSpec → Walk → Prop where
  | loop (opts : OptSet) (args : List Arg) (r : Recorder) (w : Workbench) (walk : Walk)
      (hopts : config.opts = .ok opts)
      (hrecords : Run.RecordsLoop file file.jitDriver (file.start config opts addresses).context
        args r w)
      (hwalk : Workbench.LoopWalk w r.history.inputVars r.history.operations args unit walk) :
      Walked file config addresses unit file.body walk
  | bridge (g : Guard) (bridge : BridgeSpec) (w : Workbench)
      (htraces : file.TracesFrom config addresses unit g bridge w) :
      Walked file config addresses unit bridge.ops w.bridgeWalk
  | again (g : Guard) (bridge : BridgeSpec) (w : Workbench) (walk : Walk)
      (htraces : file.TracesFrom config addresses unit g bridge w)
      (hwalk : Replayer.WalksAgain file (.guard g) w walk) :
      Walked file config addresses unit file.body walk

/--
The guard `g` comes from a guard operation of the file that has the label: the replay has put it out
for what has been recorded of this operation, as it is or as its copy in a peeled loop.
-/
def IsLabelled (file : TraceFile) (config : Config) (addresses : Nat → UInt64)
    (unit : UnitHandle) (label : String) (g : Guard) : Prop :=
  ∃ specs walk i spec, file.Walked config addresses unit specs walk ∧ specs[i]? = some spec ∧
    spec.op.isGuard = true ∧ spec.guard = some label ∧ walk.PutsOut i g

private theorem Walked.registers (h : file.Walked config addresses unit specs walk) :
    ∃ t₀ t₁ ops tail, Recorder.Registers file.guardPositions specs t₀ t₁ ops ∧
      walk.ops = ops ++ tail ∧ OwnGuards walk.start.shared.guards walk.ops := by
  cases h with
  | loop opts args r w walk hopts hrecords hwalk =>
    obtain ⟨ops, hoperations, hregisters, -⟩ := Recorder.recordLoop_registers hrecords.recorded
    have hops : r.history.operations = ops := hoperations
    have hown := hregisters.own.grows (hrecords.grows Registry.wellFormed_empty)
    rw [hops] at hwalk
    cases hwalk with
    | once opts =>
      exact ⟨_, _, ops, [.jump args (.cell unit)], hregisters, rfl, hown.append fun op hop => by
        rw [List.mem_singleton.mp hop]; rfl⟩
    | preamble opts => exact ⟨_, _, ops, [], hregisters, (List.append_nil _).symm, hown⟩
    | peeled opts state pre p q hpre henter =>
      have hgrows := (Pass.preamble_grows (w.settings opts) (.ofShared w.shared) r.history.inputVars
        args ops).1
      rw [hpre] at hgrows
      refine ⟨_, _, ops, [], hregisters, (List.append_nil _).symm, ?_⟩
      dsimp only
      rw [Pass.enterLoop_eq_ok henter]
      exact hown.grows hgrows
  | bridge g bridge w htraces =>
    obtain ⟨_, _, _, _, -, -, -, -, hrecords⟩ := htraces
    obtain ⟨history, r, hrecord, hw⟩ := hrecords.recorded
    obtain ⟨ops, closing, hhistory, hclosing, hregisters, -⟩ := Recorder.recordBridge_registers hrecord
    subst hw
    refine ⟨_, _, ops, [closing], hregisters, hhistory, ?_⟩
    dsimp only [Workbench.bridgeWalk]
    rw [hhistory]
    exact hregisters.own.append fun op hop => by
      rw [List.mem_singleton.mp hop]
      exact hclosing.not_isGuard
  | again g bridge w walk htraces hwalk =>
    cases hwalk with
    | intro w₁ w₂ trace state inputs args r q hw₁ hwaiting hrecord hw₂ henter =>
      obtain ⟨ops, hoperations, hregisters, -⟩ := Recorder.recordAgain_registers hrecord
      refine ⟨_, _, ops, [], hregisters, ?_, ?_⟩
      · rw [List.append_nil, hoperations, List.drop_left]
      · dsimp only
        rw [hoperations, List.drop_left, Pass.enterLoop_eq_ok henter, hw₂]
        exact hregisters.own

theorem Walked.subset (h : file.Walked config addresses unit specs walk) :
    specs ⊆ file.labelledOps := by
  cases h with
  | loop => exact List.subset_append_left ..
  | again => exact List.subset_append_left ..
  | bridge g bridge w htraces =>
    obtain ⟨_, _, _, _, _, _, _, _, hrecords⟩ := htraces
    have hmem : bridge ∈ file.bridges := List.mem_of_find?_eq_some hrecords.given
    exact fun spec hspec => List.mem_append_right _ (List.mem_flatMap_of_mem hmem hspec)

theorem IsLabelled.opcode (h : file.IsLabelled config addresses unit label g) :
    ∃ spec ∈ file.labelledOps, spec.guard = some label ∧ g.opcode = spec.op := by
  obtain ⟨specs, walk, i, spec, hwalked, hspec, hguard, hlabel, hputs⟩ := h
  obtain ⟨t₀, t₁, ops, tail, hregisters, hops, hown⟩ := hwalked.registers
  obtain ⟨r, hr, hopcode⟩ := hputs.opcode hown
  obtain ⟨hi, hget⟩ := List.getElem?_eq_some_iff.mp hspec
  obtain ⟨hlength, hplaces⟩ := List.forall₂_iff_get.mp hregisters.places
  have hi' : i < ops.length := hlength ▸ hi
  obtain ⟨-, hplace, -⟩ := hplaces i hi hi'
  have hr' : ops[i] = r := by
    rw [hops, List.getElem?_append_left hi'] at hr
    exact (List.getElem?_eq_some_iff.mp hr).2
  simp only [List.get_eq_getElem, hr', hget] at hplace
  rw [OpSpec.guardOpcode, if_pos hguard] at hplace
  exact ⟨spec, hwalked.subset (List.mem_of_getElem? hspec), hlabel, hopcode.trans hplace⟩

def Stands (file : TraceFile) (config : Config) (addresses : Nat → UInt64)
    (unit : UnitHandle) (t : GuardTable) (g : Guard) : Prop :=
  ∃ specs spec,
    StandsFor file.guardPositions (file.Walked config addresses unit specs) specs t spec g

private theorem Stands.moves (h : file.Stands config addresses unit c.guards g)
    (hmoves : Context.Moves c c') : file.Stands config addresses unit c'.guards g := by
  obtain ⟨specs, spec, hstands⟩ := h
  obtain ⟨hlt, hposition⟩ := hmoves.position hstands.lt
  exact ⟨specs, spec, hstands.origin, hstands.leaves, hlt, hposition.trans hstands.position⟩

/-- All guards that are looked at for a failure stand where their operations do. -/
structure Located (file : TraceFile) (config : Config) (addresses : Nat → UInt64)
    (unit : UnitHandle) (c : Context) : Prop where
  alive : c.registry.isAlive unit = true
  loop : ∀ g ∈ c.backend.guardsOf unit, file.Stands config addresses unit c.guards g
  bridges : ∀ b ∈ c.backend.bridges, ∀ g ∈ guardsIn b.operations,
    file.Stands config addresses unit c.guards g

private theorem Located.moves (h : file.Located config addresses unit c)
    (hmoves : Context.Moves c c')
    (hnew : ∀ b ∈ c'.backend.bridges, b ∈ c.backend.bridges ∨
      ∀ g ∈ guardsIn b.operations, file.Stands config addresses unit c'.guards g) :
    file.Located config addresses unit c' where
  alive := hmoves.isAlive h.alive
  loop g hg := by
    rw [Backend.guardsOf, hmoves.loopFor?_eq h.alive] at hg
    exact (h.loop g hg).moves hmoves
  bridges b hb g hg := by
    rcases hnew b hb with hold | hnew
    · exact (h.bridges b hold g hg).moves hmoves
    · exact hnew g hg

private theorem Located.same (h : file.Located config addresses unit c)
    (hmoves : Context.Moves c c') (hbridges : c'.backend.bridges = c.backend.bridges) :
    file.Located config addresses unit c' :=
  h.moves hmoves fun _ hb => .inl (hbridges ▸ hb)

private theorem Stands.links {piece : Piece} {t' : GuardTable}
    (h : file.Stands config addresses unit t g) (hlinks : piece.Links t t') :
    file.Stands config addresses unit t' g := by
  obtain ⟨specs, spec, hstands⟩ := h
  refine ⟨specs, spec, hstands.origin, hstands.leaves, hlinks.length ▸ hstands.lt, ?_⟩
  exact (hlinks.position g).trans hstands.position

private theorem TracesFrom.stands {code : List Operation} {bridge : BridgeSpec} {w : Workbench}
    (htraces : file.TracesFrom config addresses unit g bridge w)
    (hcode : Replayer.BridgeCode file (.guard g) w t code) {g' : Guard} (hg' : g' ∈ guardsIn code) :
    file.Stands config addresses unit t g' := by
  have hrecords := htraces
  obtain ⟨_, _, _, _, -, -, -, -, hrecords⟩ := hrecords
  rcases hrecords.standsFor hcode hg' with ⟨spec, hstands⟩ | ⟨spec, hstands⟩
  · refine ⟨bridge.ops, spec, ?_, hstands.leaves, hstands.lt, hstands.position⟩
    obtain ⟨walk, i, rfl, hspec, hputs⟩ := hstands.origin
    exact ⟨_, i, .bridge g bridge w htraces, hspec, hputs⟩
  · refine ⟨file.body, spec, ?_, hstands.leaves, hstands.lt, hstands.position⟩
    obtain ⟨walk, i, hwalk, hspec, hputs⟩ := hstands.origin
    exact ⟨walk, i, .again g bridge w walk htraces hwalk, hspec, hputs⟩

private theorem Located.fails {failure : FailureSpec} {position : Nat}
    (h : file.Located config addresses unit run.context)
    (hreached : file.Reaches config addresses unit done run)
    (hnext : done ++ [.fail failure] <+: file.events)
    (hposition : file.guardPositions.get? failure.guard = some position)
    (hfind : Run.findGuard? run.context unit position = some g)
    (hfails : Replayer.Fails file file.jitDriver g { descr := .guard g, values := failure.values }
      run.context c') : file.Located config addresses unit c' := by
  have hmoves := hfails.moves
  cases hfails with
  | forced _ hidles => exact h.same hmoves hidles.code.bridges
  | busy _ hidles => exact h.same hmoves hidles.code.bridges
  | blackholed _ hidles => exact h.same hmoves hidles.code.bridges
  | traced _ hidles => exact h.same hmoves hidles.code.bridges
  | bridged _ t piece hcode hfor hdelivers =>
    obtain ⟨b, -, hops, hbridges⟩ := hdelivers.code.bridges_append hfor.1
    refine h.moves hmoves fun b' hb' => ?_
    rw [hbridges] at hb'
    refine (List.mem_append.mp hb').imp_right fun hb' g' hg' => ?_
    rw [List.mem_singleton.mp hb', hops] at hg'
    cases hcode with
    | intro bridge w _ hrecords hcode =>
      have htraces : file.TracesFrom config addresses unit g bridge w :=
        .intro done run failure position hreached hnext hposition hfind hrecords
      obtain ⟨specs, spec, hstands⟩ := htraces.stands hcode hg'
      have hgrows : t.Grows (t.doneTracing g) :=
        GuardTable.Grows.modify t g _ ⟨rfl, rfl, nofun, rfl, rfl⟩
      exact Stands.links ⟨specs, spec, hstands.grows hgrows⟩ hdelivers.links

private theorem Located.perform (h : file.Located config addresses unit run.context)
    (hreached : file.Reaches config addresses unit done run)
    (hnext : done ++ [event] <+: file.events) (hne : event ≠ .collect)
    (hevent : runFrom (event.perform file file.jitDriver unit) run = (.ok (), run')) :
    file.Located config addresses unit run'.context := by
  have hc := hreached.wellFormed
  have hmoves := (Event.moves rfl hc hevent).resolve_right fun hcollect => hne hcollect.1
  cases event with
  | enter spec =>
    refine h.same hmoves ?_
    cases (Run.enter_eq_ok rfl hc hevent).1 with
    | idle hidles => exact hidles.code.bridges
    | delivered t piece hpurpose _ hdelivers =>
      exact hdelivers.code.bridges_eq (by rw [hpurpose]; rfl)
  | seek failure =>
    rw [Run.seek_eq_ok hevent]
    exact h
  | fail failure =>
    cases Run.fail_eq_ok rfl hc hevent with
    | ran _ _ _ _ _ hrun' =>
      rw [hrun']
      exact h
    | left position g exit hposition hfind _ hfails _ =>
      exact h.fails hreached hnext hposition hfind hfails
  | write field =>
    cases hevent
    exact h.same hmoves rfl
  | callback index spec =>
    obtain ⟨⟨_, _, _, hdelivers⟩, -⟩ := Run.callback_eq_ok hc hevent
    exact h.same hmoves (hdelivers.code.bridges_eq rfl)
  | collect => exact absurd rfl hne

private theorem located_loop {opts : OptSet} (hopts : config.opts = .ok opts)
    (h : Run.Loops file file.jitDriver (file.start config opts addresses).context c' unit) :
    file.Located config addresses unit c' := by
  cases h with
  | intro args r w entry t deps code hrecords hgrows hcode hdelivers =>
    obtain ⟨l, hunit, hops, hloops, hbridges⟩ := hdelivers.code
    have hfor : c'.backend.loopFor? entry.owner = some l := by
      rw [Backend.loopFor?, hloops, List.reverse_append, List.reverse_singleton,
        List.singleton_append, List.find?_cons_of_pos (by simpa using hunit)]
    obtain ⟨ops, hoperations, hregisters, -⟩ := Recorder.recordLoop_registers hrecords.recorded
    have hops' : r.history.operations = ops := hoperations
    refine ⟨?_, fun g hg => ?_, fun b hb => ?_⟩
    · rw [hdelivers.alive, beq_self_eq_true, Bool.or_true]
    · rw [Backend.guardsOf, hfor, Option.map_some, Option.getD_some, hops] at hg
      have hown : OwnGuards w.context.guards r.history.operations := by
        rw [hops']
        exact ⟨hregisters.own.nodup,
          fun g hg => Nat.lt_of_lt_of_le (hregisters.own.lt g hg) hgrows.length_le⟩
      have hcomes := (hcode.comesFrom hown hg).recordedBefore (hops' ▸ hregisters.own) hgrows
      have hcomes' := hcomes.mono (file.Walked config addresses entry.owner file.body)
        fun walk hwalk => .loop opts args r w walk hopts hrecords hwalk
      rw [hops'] at hcomes'
      obtain ⟨spec, hstands⟩ := hcomes'.standsFor hregisters
      exact Stands.links ⟨file.body, spec, hstands⟩ hdelivers.links
    · rw [hbridges] at hb
      cases hb

theorem Reaches.located (h : file.Reaches config addresses unit done run) (hno : .collect ∉ done) :
    file.Located config addresses unit run.context := by
  induction h with
  | loop opts hopts hloop =>
    exact located_loop hopts (Run.loop_eq_ok rfl Registry.wellFormed_empty hloop).1
  | event hnext h hevent ih =>
    rw [List.mem_append, List.mem_singleton, not_or] at hno
    exact (ih hno.1).perform h hnext (Ne.symm hno.2) hevent

theorem collect_not_mem {failure : FailureSpec} (h : done ++ [.fail failure] <+: file.events) :
    Event.collect ∉ done := by
  intro hmem
  obtain ⟨rest, hrest⟩ := h
  rw [events, List.append_assoc] at hrest
  rcases List.append_eq_append_iff.mp hrest with ⟨between, hfront, -⟩ | ⟨between, -, hcollects⟩
  · have hin : Event.collect ∈ done ++ between := List.mem_append_left _ hmem
    rw [← hfront] at hin
    simp only [List.mem_append, List.mem_map, List.mem_flatMap, List.mem_cons,
      List.mem_replicate] at hin
    simp at hin
  · have hfail : Event.fail failure ∈ List.replicate file.generations Event.collect := by
      rw [hcollects]
      simp
    cases List.eq_of_mem_replicate hfail

private theorem stands_of_findGuard? {position : Nat}
    (hlocated : file.Located config addresses unit c)
    (hfind : Run.findGuard? c unit position = some g) :
    file.Stands config addresses unit c.guards g ∧ (c.guards.get g).data.position = position := by
  rcases Option.or_eq_some_iff.mp hfind with hfound | ⟨-, hfound⟩
  · have hat := List.find?_some hfound
    exact ⟨hlocated.loop g (List.mem_reverse.mp (List.mem_of_find?_eq_some hfound)),
      by simpa using hat⟩
  · have hat := List.find?_some hfound
    obtain ⟨b, hb, hg⟩ := List.mem_flatMap.mp (List.mem_of_find?_eq_some hfound)
    exact ⟨hlocated.bridges b (List.mem_reverse.mp hb) g hg, by simpa using hat⟩

private theorem Stands.isLabelled {position : Nat} (h : file.Stands config addresses unit t g)
    (hat : (t.get g).data.position = position)
    (hposition : file.guardPositions.get? label = some position)
    (hadrift : position ≠ 0 ∨ ∀ spec ∈ file.labelledOps, spec.isAdrift = false) :
    file.IsLabelled config addresses unit label g := by
  obtain ⟨specs, spec, hstands⟩ := h
  obtain ⟨walk, i, hwalked, hspec, hputs⟩ := hstands.origin
  have hmem : spec ∈ file.labelledOps := hwalked.subset (List.mem_of_getElem? hspec)
  have hplace := hstands.position.symm.trans hat
  have htold : spec.ownsGuard = true ∧ spec.guard.isSome = true := by
    rcases hadrift with hne | hall
    · rw [OpSpec.position] at hplace
      split at hplace
      · rename_i howns
        refine ⟨howns, ?_⟩
        cases hlabel : spec.guard with
        | none =>
          rw [hlabel] at hplace
          exact absurd hplace.symm hne
        | some l => rfl
      · exact absurd hplace.symm hne
    · have hnot := hall spec hmem
      rw [OpSpec.isAdrift, hstands.leaves, Bool.true_and, Bool.not_eq_false'] at hnot
      exact Bool.and_eq_true_iff.mp hnot
  obtain ⟨howns, hlabel⟩ := htold
  obtain ⟨l, hl⟩ := Option.isSome_iff_exists.mp hlabel
  obtain ⟨position', hposition'⟩ := exists_position hmem hl
  have heq : position' = position := by
    rw [OpSpec.position, if_pos howns, hl, Option.bind_some, hposition'] at hplace
    exact hplace
  subst heq
  exact ⟨specs, walk, i, spec, hwalked, hspec, (Bool.and_eq_true_iff.mp howns).1,
    hl.trans (congrArg some (label_unique hposition' hposition)), hputs⟩

/--
A failure reaches the guard that it names: the guard that is found for its label, which then fails
or whose bridge runs, comes from a guard operation with the label, and the bridge that is recorded
behind it is one that the file gives for the label. It is so unless the label is that of the first
operation and some other guard stands there for want of a label.
-/
theorem failure_finds_label {failure : FailureSpec} {position : Nat}
    (hreached : file.Reaches config addresses unit done run)
    (hnext : done ++ [.fail failure] <+: file.events)
    (hposition : file.guardPositions.get? failure.guard = some position)
    (hfind : Run.findGuard? run.context unit position = some g)
    (hadrift : position ≠ 0 ∨ ∀ spec ∈ file.labelledOps, spec.isAdrift = false) :
    let frame : DeadFrame := { descr := .guard g, values := failure.values }
    file.IsLabelled config addresses unit failure.guard g ∧
      ∀ bridge w, Replayer.RecordsBridge file file.jitDriver g frame
        ((run.context.countFailure file.jitDriver g frame).2.startTracing g) bridge w →
        bridge ∈ file.bridges ∧ bridge.guard = failure.guard := by
  intro frame
  obtain ⟨hstands, hat⟩ := stands_of_findGuard? (hreached.located (collect_not_mem hnext)) hfind
  refine ⟨hstands.isLabelled hat hposition hadrift, fun bridge w hrecords => ?_⟩
  have hgiven := hrecords.given
  obtain ⟨counter, hcounter⟩ := Replayer.mustCompile_eq run.context.countFailed file.jitDriver g frame
  rw [Context.countFailure, ← Context.countFailed, hcounter] at hgiven
  have hsame := Replayer.position_startTracing run.context.guards g
  have hthere : file.guardPositions.get? bridge.guard = some position := by
    have hfound := List.find?_some hgiven
    rw [← hat, ← hsame]
    exact beq_iff_eq.mp hfound
  exact ⟨List.mem_of_find?_eq_some hgiven, label_unique hthere hposition⟩

private def firstFound? (file : TraceFile) (config : Config) (addresses : Nat → UInt64)
    (opts : OptSet) (position : Nat) : Option Guard :=
  let loop := runFrom (Run.loop file file.jitDriver) (file.start config opts addresses)
  loop.1.toOption.bind fun unit => Run.findGuard? loop.2.context unit position

private theorem exists_seek {opts : OptSet} {failure : FailureSpec} {position : Nat}
    (hopts : config.opts = .ok opts) (hnext : [.seek failure] <+: file.events)
    (hposition : file.guardPositions.get? failure.guard = some position)
    (hfound : file.firstFound? config addresses opts position = some g) :
    ∃ unit run, file.Reaches config addresses unit [.seek failure] run ∧
      Run.findGuard? run.context unit position = some g := by
  unfold firstFound? at hfound
  cases hloop : runFrom (Run.loop file file.jitDriver) (file.start config opts addresses) with
  | mk answer run =>
    rw [hloop] at hfound
    cases answer with
    | error e => cases hfound
    | ok unit =>
      have hreached : file.Reaches config addresses unit [] run := .loop opts hopts hloop
      refine ⟨unit, run, hreached.event hnext ?_, hfound⟩
      simp only [Event.perform, hposition]
      rfl

/-- In a countdown the label at the first position is that of the guard in the loop. -/
theorem failure_finds_label_countdown :
    let config : Config := { traceEagerness := 1, counterBits := 1 }
    let addresses := Guard.inOrder
    let failure : FailureSpec := { guard := "done", values := [.int 0], times := 2 }
    ∃ unit run g, countdown.Reaches config addresses unit [.seek failure] run ∧
      [.seek failure] ++ [.fail failure] <+: countdown.events ∧
      countdown.guardPositions.get? failure.guard = some 0 ∧
      Run.findGuard? run.context unit 0 = some g ∧
      (∀ spec ∈ countdown.labelledOps, spec.isAdrift = false) ∧
      countdown.IsLabelled config addresses unit "done" g := by
  intro config addresses failure
  have hopts : config.opts = .ok .all := by decide +kernel
  have hposition : countdown.guardPositions.get? failure.guard = some 0 := by decide +kernel
  have hadrift : ∀ spec ∈ countdown.labelledOps, spec.isAdrift = false := by decide +kernel
  have hevents : [.seek failure] ++ [.fail failure] <+: countdown.events := ⟨_, rfl⟩
  have hfound : (countdown.firstFound? config addresses .all 0).isSome = true := by decide +kernel
  obtain ⟨g, hg⟩ := Option.isSome_iff_exists.mp hfound
  obtain ⟨unit, run, hreached, hfind⟩ :=
    exists_seek hopts ((List.prefix_append ..).trans hevents) hposition hg
  exact ⟨unit, run, g, hreached, hevents, hposition, hfind, hadrift,
    (failure_finds_label hreached hevents hposition hfind (.inr hadrift)).1⟩

/-- The first of two guards has a label. The other has none. -/
def shadowed : TraceFile where
  driver := { name := "d" }
  inputs := [⟨"i0", .int 1⟩, ⟨"i1", .int 0⟩]
  body := [
    { op := .guardTrue, args := [.name "i0"], failArgs := ["i0", "i1"], guard := some "a" },
    { op := .guardFalse, args := [.name "i1"], failArgs := ["i0", "i1"] }]
  jump := [.name "i0", .name "i1"]
  bridges := [{
    guard := "a"
    inputs := ["i5", "i6"]
    jump := some [.const (.int 1), .name "i6"] }]
  failures := [{ guard := "a", values := [.int 0, .int 0] }]

/-- The guard without a label stands where the label does, and a failure of the label reaches it. -/
theorem failure_misses_label_shadowed :
    let config : Config := { traceEagerness := 1, counterBits := 1 }
    let addresses := Guard.inOrder
    let failure : FailureSpec := { guard := "a", values := [.int 0, .int 0] }
    (shadowed.labelledOps.filterMap (·.guard)).Nodup ∧
    ∃ unit run g, shadowed.Reaches config addresses unit [.seek failure] run ∧
      [.seek failure] ++ [.fail failure] <+: shadowed.events ∧
      shadowed.guardPositions.get? failure.guard = some 0 ∧
      Run.findGuard? run.context unit 0 = some g ∧ g.opcode = .guardFalse ∧
      ¬ shadowed.IsLabelled config addresses unit "a" g := by
  intro config addresses failure
  have hopts : config.opts = .ok .all := by decide +kernel
  have hposition : shadowed.guardPositions.get? failure.guard = some 0 := by decide +kernel
  have hevents : [.seek failure] ++ [.fail failure] <+: shadowed.events := ⟨_, rfl⟩
  have hfound : (shadowed.firstFound? config addresses .all 0).map (·.opcode) =
      some .guardFalse := by
    decide +kernel
  obtain ⟨g, hg, hopcode⟩ := Option.map_eq_some_iff.mp hfound
  obtain ⟨unit, run, hreached, hfind⟩ :=
    exists_seek hopts ((List.prefix_append ..).trans hevents) hposition hg
  refine ⟨by decide +kernel, unit, run, g, hreached, hevents, hposition, hfind, hopcode,
    fun hlabelled => ?_⟩
  obtain ⟨spec, hspec, hlabel, hop⟩ := hlabelled.opcode
  have hfirst : ∀ spec ∈ shadowed.labelledOps, spec.guard = some "a" → spec.op = .guardTrue := by
    decide +kernel
  rw [hopcode, hfirst spec hspec hlabel] at hop
  cases hop

end TraceFile

end HotLoop
