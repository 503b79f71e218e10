import HotLoop.Proofs.Compile.Delivering

/-!
# The descriptors in delivered code

If the operations in a session have descriptors of their own, made when there were `n` guards, then
all descriptors in what is compiled from the session have been made since, and no two guards share
one.
-/

namespace HotLoop

/--
The code `out` has only descriptors made since there were `n` guards, and no guards that share one.
-/
structure NewGuards (n : Nat) (t : GuardTable) (out : List Operation) : Prop where
  nodup : ((guardsIn out).map (·.id)).Nodup
  lt : ∀ g ∈ guardsIn out, g.id < t.records.length
  new : ∀ g, NamesGuard out g → n ≤ g.id

section Naming

variable {ops ops' out out' : List Operation} {g : Guard} {n : Nat} {t t' : GuardTable}

theorem namesGuard_append : NamesGuard (ops ++ ops') g ↔ NamesGuard ops g ∨ NamesGuard ops' g := by
  simp only [NamesGuard, List.mem_append]
  grind

theorem namesGuard_of_mem (h : g ∈ guardsIn ops) : NamesGuard ops g := by
  obtain ⟨op, hop, -, hg⟩ := mem_guardsIn.mp h
  exact ⟨op, hop, g, hg, rfl⟩

theorem not_namesGuard (h : ∀ op ∈ ops, op.guard? = none) : ¬ NamesGuard ops g := by
  rintro ⟨op, hop, g', hg', -⟩
  rw [h op hop] at hg'
  cases hg'

namespace NewGuards

theorem congr (h : NewGuards n t out) (hguards : guardsIn out' = guardsIn out)
    (hnames : ∀ g, NamesGuard out' g → NamesGuard out g) : NewGuards n t out' :=
  ⟨hguards ▸ h.nodup, hguards ▸ h.lt, fun g hg => h.new g (hnames g hg)⟩

/-- Code behind code, whose descriptors are newer. -/
theorem append (h : NewGuards n t out) (h' : NewGuards n t' out')
    (hlater : ∀ g ∈ guardsIn out', t.records.length ≤ g.id) (ht : t.records.length ≤ t'.records.length) :
    NewGuards n t' (out ++ out') where
  nodup := by
    rw [guardsIn_append, List.map_append]
    refine List.nodup_append.mpr ⟨h.nodup, h'.nodup, fun i hi j hj hij => ?_⟩
    obtain ⟨g, hg, rfl⟩ := List.mem_map.mp hi
    obtain ⟨g', hg', rfl⟩ := List.mem_map.mp hj
    have hlt := h.lt g hg
    have hle := hlater g' hg'
    have hij : g.id = g'.id := hij
    omega
  lt g hg := by
    rw [guardsIn_append] at hg
    exact (List.mem_append.mp hg).elim (fun hg => Nat.lt_of_lt_of_le (h.lt g hg) ht) (h'.lt g)
  new g hg := (namesGuard_append.mp hg).elim (h.new g) (h'.new g)

theorem grows (h : NewGuards n t out) (hgrows : t.Grows t') : NewGuards n t' out :=
  ⟨h.nodup, fun g hg => Nat.lt_of_lt_of_le (h.lt g hg) hgrows.length_le, h.new⟩

end NewGuards

theorem Pass.Issues.newGuards {s : PassSettings} (h : Issues s t t' ops out)
    (hn : n ≤ t.records.length) (hops : ∀ g, NamesGuard ops g → n ≤ g.id) : NewGuards n t' out :=
  ⟨h.nodup, h.lt, fun g hg => (h.named g hg).elim (hops g) (Nat.le_trans hn)⟩

end Naming

section Redirecting

variable {code code' : List Operation} {entry : EntryPoint}

theorem guardsIn_redirectJump? (h : redirectJump? code entry = some code') :
    guardsIn code' = guardsIn code ∧ ∀ g, NamesGuard code' g → NamesGuard code g := by
  unfold redirectJump? at h
  split at h
  · rename_i last hlast
    split at h
    · rename_i hop
      cases h
      obtain ⟨front, rfl⟩ := List.getLast?_eq_some_iff.mp hlast
      have hnil (op : Operation) (hop : op.opcode = .jump) : guardsIn [op] = [] := by
        refine guardsIn_eq_nil fun o ho => ?_
        rw [List.mem_singleton.mp ho, Operation.isGuard, hop]
        rfl
      rw [List.dropLast_concat]
      refine ⟨?_, fun g hg => namesGuard_append.mpr (.inl ?_)⟩
      · rw [guardsIn_append, guardsIn_append, hnil last hop,
          hnil { last with descr := some (.target entry) } hop]
      · refine (namesGuard_append.mp hg).resolve_right (not_namesGuard ?_)
        intro op hop
        rw [List.mem_singleton.mp hop]
        rfl
    · cases h
  · cases h

end Redirecting

namespace Workbench

variable {w w' : Workbench} {vars : List Var} {ops code : List Operation} {jumpArgs : List Arg}
  {entry : EntryPoint} {t : GuardTable} {deps : FieldSet} {n : Nat}

/-- The operations of a session have descriptors of their own, made since there were `n` guards. -/
structure OwnsNew (n : Nat) (t : GuardTable) (ops : List Operation) : Prop where
  own : OwnGuards t ops
  new : ∀ g, NamesGuard ops g → n ≤ g.id
  le : n ≤ t.records.length

namespace OwnsNew

variable {tail : List Operation} {t' : GuardTable}

theorem append (h : OwnsNew n t ops) (htail : ∀ op ∈ tail, op.isGuard = false ∧ op.guard? = none) :
    OwnsNew n t (ops ++ tail) := by
  refine ⟨h.own.append fun op hop => (htail op hop).1, fun g hg => h.new g ?_, h.le⟩
  exact (namesGuard_append.mp hg).resolve_right (not_namesGuard fun op hop => (htail op hop).2)

theorem grows (h : OwnsNew n t ops) (hgrows : t.Grows t') : OwnsNew n t' ops :=
  ⟨h.own.grows hgrows, h.new, Nat.le_trans h.le hgrows.length_le⟩

end OwnsNew

private theorem guardsIn_label (vars : List Var) (descr : Descr) (code : List Operation) :
    guardsIn (.label vars descr :: code) = guardsIn code := rfl

private theorem namesGuard_label {code : List Operation} {g : Guard}
    (h : NamesGuard (.label vars (.target entry) :: code) g) : NamesGuard code g := by
  obtain ⟨op, hop, g', hg', hid⟩ := h
  rcases List.mem_cons.mp hop with rfl | hop
  · cases hg'
  · exact ⟨op, hop, g', hg', hid⟩

/-- In the code of a peeled loop, the guards behind the header are copies. -/
theorem newGuards_peeled {s : PassSettings} {shared : OptState} {p : Pass} {pre : List Operation}
    {inputs : List Var} {state : ExportedState} {result : Optimized} {header : LoopHeader}
    {unit : UnitHandle} (hpre : NewGuards n shared.guards pre) (hown : OwnsNew n shared.guards ops)
    (hpeeled : runFrom (Pass.peeled s inputs (.jump jumpArgs (.cell unit)) ops state)
      (.ofShared shared) = (.ok result, p)) (hheader : result.header = some header) :
    NewGuards n p.shared.guards (pre ++ header.copies ++ [header.label] ++ result.operations) := by
  obtain ⟨header', q, r, hpeels⟩ := Pass.peels_of_peeled hpeeled
  cases hpeels.isHeader.symm.trans hheader
  have hissues := hpeels.issues rfl rfl hown.own
  have hcopies : ∀ op ∈ header.copies ++ [header.label], op.isGuard = false ∧ op.guard? = none := by
    intro op hop
    rcases List.mem_append.mp hop with hop | hop
    · obtain ⟨hno, hdescr⟩ := hpeels.copies op hop
      exact ⟨hno, by rw [Operation.guard?, hdescr]; rfl⟩
    · rw [List.mem_singleton.mp hop]
      exact ⟨rfl, rfl⟩
  have hfront : NewGuards n shared.guards (pre ++ (header.copies ++ [header.label])) := by
    refine hpre.congr ?_ fun g hg => ?_
    · rw [guardsIn_append, guardsIn_eq_nil fun op hop => (hcopies op hop).1, List.append_nil]
    · exact (namesGuard_append.mp hg).resolve_right (not_namesGuard fun op hop => (hcopies op hop).2)
  have hgrows := (Pass.peeled_grows s (.ofShared shared) inputs (.jump jumpArgs (.cell unit)) ops
    state).1
  rw [hpeeled] at hgrows
  have hlater := hissues.newGuards hown.le hown.new
  have happend := hfront.append hlater (fun g hg => ?_) hgrows.length_le
  · simpa only [List.append_assoc] using happend
  · exact (hissues.origin g hg).resolve_left fun h => Bool.noConfusion h.1

theorem LoopCode.newGuards (h : LoopCode w vars ops jumpArgs entry t deps code)
    (hown : OwnsNew n w.context.guards ops) : NewGuards n t code := by
  cases h with
  | once opts result p code' hwalk hredirect ht =>
    obtain ⟨hguards, hnames⟩ := guardsIn_redirectJump? hredirect
    have hown' : OwnsNew n w.context.guards (ops ++ [.jump jumpArgs (.cell entry.owner)]) :=
      hown.append fun op hop => by rw [List.mem_singleton.mp hop]; exact ⟨rfl, rfl⟩
    have hissues := Pass.simple_issues (p := .ofShared w.shared) rfl hown'.own hwalk
    refine ht ▸ (hissues.newGuards hown'.le hown'.new).congr ?_ fun g hg => ?_
    · rw [guardsIn_label, hguards]
    · exact hnames g (namesGuard_label hg)
  | unrolled opts state pre p₁ result header p₂ hpre hpeeled hheader ht =>
    have hissues := Pass.preamble_issues (p := .ofShared w.shared) rfl hown.own hpre
    have hgrows := (Pass.preamble_grows (w.settings opts) (.ofShared w.shared) vars jumpArgs ops).1
    rw [hpre] at hgrows
    have hnew := newGuards_peeled (hissues.newGuards hown.le hown.new) (hown.grows hgrows) hpeeled
      hheader
    exact ht ▸ hnew.congr (guardsIn_label ..) fun g hg => namesGuard_label hg

theorem newGuards_of_tracePass {resumeKey : ResumeKey} {s : PassSettings} {result : Optimized}
    {p : Pass} (hown : OwnsNew n w.context.guards w.session.history.operations)
    (h : runFrom (w.tracePass resumeKey s) (.ofShared w.shared) = (.ok result, p)) :
    NewGuards n p.shared.guards result.operations := by
  rw [tracePass] at h
  split at h
  · exact (Pass.bridge_issues rfl hown.own h).newGuards hown.le hown.new
  · exact (Pass.simple_issues rfl hown.own h).newGuards hown.le hown.new

end Workbench

end HotLoop
