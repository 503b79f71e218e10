import HotLoop.Proofs.Walk.Slots

/-!
# What is on file for a guard

Finishing a guard writes the numbering and the constants of its slots into its record, and a guard
that compares a variable of the frame is told where in the frame the compared value is.
-/

namespace HotLoop

namespace GuardTable

variable {t t' : GuardTable} {g : Guard} {op : Operation} {n : NumberedSlots}

theorem invent_eq_ok {driver : Nat} {opcode : OpCode} {data : ResumeData}
    (h : t.invent driver opcode data = .ok (g, t')) :
    ∃ kind, GuardKind.ofOpCode driver opcode = .ok kind ∧ (g, t') = t.make opcode kind data := by
  simp only [invent, bind, Except.bind] at h
  split at h
  · cases h
  · rename_i kind hkind
    cases h
    exact ⟨kind, hkind, rfl⟩

/-- A new guard has the first number that is free. -/
theorem lt_of_make {opcode : OpCode} {kind : GuardKind} {data : ResumeData}
    (h : (g, t') = t.make opcode kind data) :
    t.records.length ≤ g.id ∧ g.id < t'.records.length := by
  obtain ⟨rfl, rfl⟩ := Prod.mk.inj h
  exact ⟨Nat.le_refl _, by simp⟩

/-- The record of a guard has the numbered slots `n`. -/
structure Stores (t : GuardTable) (g : Guard) (n : NumberedSlots) : Prop where
  lt : g.id < t.records.length
  numbering : (t.get g).data.numbering = n.numbering
  consts : (t.get g).data.consts = n.consts

/--
The record of the guard `g`, which has been emitted as `op`, has the numbered slots `n`. If `g`
compares a variable that it hands over, the record says in which slot.
-/
structure Files (t : GuardTable) (g : Guard) (op : Operation) (n : NumberedSlots) : Prop
    extends Stores t g n where
  index : op.opcode = .guardValue → ∀ v, op.args.head? = some (.var v) → some v ∈ op.failSlots →
    ∃ i, (t.get g).valueIndex? = some i ∧ op.failSlots[i]? = some (some v)

theorem Files.of_get_eq (h : t.Files g op n) (hle : t.records.length ≤ t'.records.length)
    (hget : t'.get g = t.get g) : t'.Files g op n where
  lt := Nat.lt_of_lt_of_le h.lt hle
  numbering := by rw [hget]; exact h.numbering
  consts := by rw [hget]; exact h.consts
  index := by rw [hget]; exact h.index

@[simp] theorem length_modify (t : GuardTable) (g : Guard) (f : GuardRecord → GuardRecord) :
    (t.modify g f).records.length = t.records.length := by
  rw [modify, List.length_modify]

theorem get_modify_self (hg : g.id < t.records.length) (f : GuardRecord → GuardRecord) :
    (t.modify g f).get g = f (t.get g) := by
  rw [get_modify, if_pos ⟨rfl, hg⟩]

theorem Stores.setCounting (h : t.Stores g n) (counting : Counting) :
    (t.setCounting g counting).Stores g n where
  lt := by rw [GuardTable.setCounting, length_modify]; exact h.lt
  numbering := by rw [GuardTable.setCounting, get_modify_self h.lt]; exact h.numbering
  consts := by rw [GuardTable.setCounting, get_modify_self h.lt]; exact h.consts

private theorem Stores.setCount (h : t.Stores g n) (hn : n.numbering.length = n.boxes.length) :
    (t.setCount g n.boxes.length).Stores g n where
  lt := by rw [GuardTable.setCount, length_modify]; exact h.lt
  numbering := by
    rw [GuardTable.setCount, get_modify_self h.lt]
    dsimp only
    split
    · rename_i hempty
      rw [List.isEmpty_iff, h.numbering] at hempty
      rw [hempty] at hn
      rw [hempty, ← hn]
      rfl
    · exact h.numbering
  consts := by rw [GuardTable.setCount, get_modify_self h.lt]; exact h.consts

/-- Storing the final fail arguments leaves the slots in the record as they have been written. -/
theorem stores_storeBoxes (hg : g.id < t.records.length) (data : ResumeData)
    (hnumbering : data.numbering = n.numbering) (hconsts : data.consts = n.consts)
    (hn : n.numbering.length = n.boxes.length) (counter : Counter) (op : Operation) :
    ((t.setData g data).storeBoxes counter g op n.boxes).2.1.Stores g n := by
  have hdata : (t.setData g data).Stores g n :=
    ⟨by rw [setData, length_modify]; exact hg, by rw [setData, get_modify_self hg]; exact hnumbering,
      by rw [setData, get_modify_self hg]; exact hconsts⟩
  exact (hdata.setCount hn).setCounting _

theorem Stores.files_of_ne (h : t.Stores g n) (hop : op.opcode ≠ .guardValue) :
    t.Files g op n :=
  ⟨h, fun heq => absurd heq hop⟩

/--
What becomes of a request to count by the compared value: only a guard that compares can, it does if
the compared variable is in one of its slots, and a variable without a value cannot be counted.
-/
inductive CountsPerValue (t : GuardTable) (g : Guard) (op : Operation) :
    Except Fault GuardTable → Prop where
  | other (hop : op.opcode ≠ .guardValue) :
    CountsPerValue t g op (.error (.notComparing op.opcode))
  | absent (hop : op.opcode = .guardValue)
    (h : ∀ v, op.args.head? = some (.var v) → some v ∉ op.failSlots) : CountsPerValue t g op (.ok t)
  | void (hop : op.opcode = .guardValue) {v : Var} (hv : op.args.head? = some (.var v))
    (hmem : some v ∈ op.failSlots) (hvoid : v.kind = .void) :
    CountsPerValue t g op (.error .guardOnVoid)
  | slot (hop : op.opcode = .guardValue) {v : Var} {i : Nat} (hv : op.args.head? = some (.var v))
    (hi : op.failSlots[i]? = some (some v)) (hkind : v.kind ≠ .void) :
    CountsPerValue t g op (.ok (t.setCounting g (.perValue v.kind i)))

theorem countPerValue_spec (t : GuardTable) (g : Guard) (op : Operation) :
    CountsPerValue t g op (t.countPerValue g op) := by
  unfold countPerValue
  split
  · exact .other ‹_›
  · rename_i hop
    have hop : op.opcode = .guardValue := not_not.mp hop
    split
    · rename_i hnone
      exact .absent hop fun v hv => by simp [hv, Arg.var?] at hnone
    · rename_i w hw
      have hhead : op.args.head? = some (.var w) := by
        obtain ⟨a, ha, haw⟩ := Option.bind_eq_some_iff.mp hw
        rwa [Arg.var?_eq_some_iff.mp haw] at ha
      split
      · rename_i hnone
        refine .absent hop fun v hv hmem => ?_
        cases hhead.symm.trans hv
        simpa using List.findIdx?_eq_none_iff.mp hnone _ hmem
      · rename_i i hi
        obtain ⟨hlt, heq, -⟩ := List.findIdx?_eq_some_iff_getElem.mp hi
        have hslot : op.failSlots[i]? = some (some w) := by
          rw [List.getElem?_eq_getElem hlt, beq_iff_eq.mp heq]
        split
        · exact .void hop hhead (List.mem_of_getElem? hslot) ‹_›
        · exact .slot hop hhead hslot ‹_›

theorem Stores.files_of_countPerValue (h : t.Stores g n) (hcount : t.countPerValue g op = .ok t') :
    t'.Files g op n := by
  have hspec := countPerValue_spec t g op
  rw [hcount] at hspec
  cases hspec with
  | absent _ habsent => exact ⟨h, fun _ v hv hmem => absurd hmem (habsent v hv)⟩
  | @slot _ w i hw hi _ =>
    refine ⟨h.setCounting _, fun _ v hv _ => ⟨i, ?_, ?_⟩⟩
    · rw [GuardTable.setCounting, get_modify_self h.lt]
      rfl
    · cases hw.symm.trans hv
      exact hi

end GuardTable

/-- A guard that compares with a value can be counted by it: what it hands over is not void. -/
def Operation.Countable (op : Operation) : Prop :=
  ∀ v, op.args.head? = some (.var v) → some v ∈ op.failSlots → v.kind ≠ .void

theorem GuardTable.exists_countPerValue_iff {t : GuardTable} {g : Guard} {op : Operation}
    (hop : op.opcode = .guardValue) : (∃ t', t.countPerValue g op = .ok t') ↔ op.Countable := by
  have hspec := countPerValue_spec t g op
  generalize t.countPerValue g op = answer at hspec
  cases hspec with
  | other hno => exact absurd hop hno
  | absent _ habsent => exact iff_of_true ⟨t, rfl⟩ fun v hv hmem => absurd hmem (habsent v hv)
  | void _ hv hmem hvoid =>
    refine iff_of_false ?_ fun h => h _ hv hmem hvoid
    rintro ⟨_, h⟩
    cases h
  | slot _ hw _ hkind =>
    refine iff_of_true ⟨_, rfl⟩ fun v hv _ => ?_
    cases hw.symm.trans hv
    exact hkind

end HotLoop
