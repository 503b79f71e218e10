import HotLoop.Proofs.Replay.Lines

/-!
# A decoded file has values

There is no JSON text for the lack of a value. Whatever file is read, all that it calls a value is
one: the inputs, the arguments that are constants, and what the failing guards are given.
-/

namespace HotLoop

namespace Json

variable {α : Type} {P : α → Prop} {item : Json → Option α}

def Yields (item : Json → Option α) (P : α → Prop) : Prop := ∀ j a, item j = some a → P a

theorem Yields.list (h : Yields item P) : Yields (list? item) fun l => ∀ a ∈ l, P a := by
  intro j l hl
  unfold list? at hl
  split at hl
  · rename_i items
    induction items generalizing l with
    | nil =>
      cases hl
      exact fun _ => nofun
    | cons i items ih =>
      simp only [List.mapM_cons, Option.bind_eq_bind, Option.bind_eq_some_iff, Option.pure_def,
        Option.some.injEq] at hl
      obtain ⟨a, ha, rest, hrest, rfl⟩ := hl
      exact List.forall_mem_cons.mpr ⟨h i a ha, ih rest hrest⟩
  · cases hl

theorem Yields.nullable (h : Yields item P) : Yields (nullable? item) fun o => ∀ a ∈ o, P a := by
  intro j o ho
  unfold nullable? at ho
  split at ho
  · cases ho
    exact fun _ => nofun
  · obtain ⟨a, ha, rfl⟩ := Option.map_eq_some_iff.mp ho
    rintro b ⟨⟩
    exact h j a ha

theorem Yields.required (h : Yields item P) {field : Option Json} {a : α}
    (ha : required? item field = some a) : P a := by
  obtain ⟨j, -, hj⟩ := Option.bind_eq_some_iff.mp ha
  exact h j a hj

theorem Yields.withDefault (h : Yields item P) {default : α} (hdefault : P default)
    {field : Option Json} {a : α} (ha : withDefault? default item field = some a) : P a := by
  cases field with
  | none =>
    cases ha
    exact hdefault
  | some j => exact h j a ha

theorem Yields.items (h : Yields item P) {field : Option Json} {l : List α}
    (hl : withDefault? [] (list? item) field = some l) : ∀ a ∈ l, P a :=
  h.list.withDefault (List.forall_mem_nil _) hl

end Json

open Json

namespace Replay

theorem decodeValue?_yields : Yields decodeValue? fun x => x.kind ≠ .void := by
  intro j x hx
  unfold decodeValue? at hx
  split at hx
  · cases hx
    exact Kind.noConfusion
  · cases hx
    exact Kind.noConfusion
  · unfold decodeRef? at hx
    split at hx
    · split at hx
      · obtain ⟨a, -, rfl⟩ := Option.map_eq_some_iff.mp hx
        exact Kind.noConfusion
      · cases hx
    · cases hx

theorem decodeArg?_yields : Yields decodeArg? ArgSpec.HasValue := by
  intro j a ha
  unfold decodeArg? at ha
  split at ha
  · cases ha
    rintro c ⟨⟩
  · obtain ⟨x, hx, rfl⟩ := Option.map_eq_some_iff.mp ha
    rintro c ⟨⟩
    exact decodeValue?_yields _ _ hx

theorem decodeInput?_yields : Yields decodeInput? fun i => i.value.kind ≠ .void := by
  intro j i hi
  unfold decodeInput? at hi
  simp only [Option.bind_eq_bind, Option.bind_eq_some_iff] at hi
  obtain ⟨fields, -, hi⟩ := hi
  split at hi
  · simp only [Option.bind_eq_some_iff] at hi
    obtain ⟨_, -, x, hx, ⟨⟩⟩ := hi
    exact decodeValue?_yields.required hx
  · cases hi

theorem decodeOp?_yields : Yields decodeOp? OpSpec.HasValues := by
  intro j spec hspec
  unfold decodeOp? at hspec
  simp only [Option.bind_eq_bind, Option.bind_eq_some_iff] at hspec
  obtain ⟨fields, -, hspec⟩ := hspec
  split at hspec
  · simp only [Option.bind_eq_some_iff] at hspec
    obtain ⟨_, -, _, -, args, hargs, _, -, _, -, _, -, ⟨⟩⟩ := hspec
    exact decodeArg?_yields.items hargs
  · cases hspec

theorem decodeBridge?_yields : Yields decodeBridge? fun b => (∀ spec ∈ b.ops, spec.HasValues) ∧
    ∀ closing, b.closing? = some closing → ∀ a ∈ closing, a.HasValue := by
  intro j b hb
  unfold decodeBridge? at hb
  simp only [Option.bind_eq_bind, Option.bind_eq_some_iff] at hb
  obtain ⟨fields, -, hb⟩ := hb
  split at hb
  · simp only [Option.bind_eq_some_iff] at hb
    obtain ⟨_, -, _, -, ops, hops, jump, hjump, finish, hfinish, ⟨⟩⟩ := hb
    have hjump := decodeArg?_yields.list.nullable.withDefault (by simp) hjump
    have hfinish := decodeArg?_yields.list.nullable.withDefault (by simp) hfinish
    refine ⟨decodeOp?_yields.items hops, fun closing hclosing => ?_⟩
    unfold BridgeSpec.closing? at hclosing
    split at hclosing
    · cases hclosing
      exact hjump _ ‹_›
    · cases hclosing
      exact hfinish _ ‹_›
    · cases hclosing
  · cases hb

theorem decodeEntry?_yields : Yields decodeEntry? fun e =>
    (∀ i ∈ e.inputs, i.value.kind ≠ .void) ∧ (∀ spec ∈ e.ops, spec.HasValues) ∧
      ∀ a ∈ e.jump, a.HasValue := by
  intro j e he
  unfold decodeEntry? at he
  simp only [Option.bind_eq_bind, Option.bind_eq_some_iff] at he
  obtain ⟨fields, -, he⟩ := he
  split at he
  · simp only [Option.bind_eq_some_iff] at he
    obtain ⟨_, -, inputs, hinputs, ops, hops, jump, hjump, ⟨⟩⟩ := he
    exact ⟨decodeInput?_yields.list.required hinputs,
      decodeOp?_yields.items hops,
      decodeArg?_yields.list.required hjump⟩
  · cases he

theorem decodeFailure?_yields : Yields decodeFailure? fun f => ∀ x ∈ f.values, x.kind ≠ .void := by
  intro j f hf
  unfold decodeFailure? at hf
  simp only [Option.bind_eq_bind, Option.bind_eq_some_iff] at hf
  obtain ⟨fields, -, hf⟩ := hf
  split at hf
  · simp only [Option.bind_eq_some_iff] at hf
    obtain ⟨_, -, values, hvalues, _, -, ⟨⟩⟩ := hf
    exact decodeValue?_yields.list.required hvalues
  · cases hf

end Replay

namespace TraceFile

open Replay

theorem decode?_yields : Yields decode? HasValues := by
  intro j file hfile
  unfold decode? at hfile
  simp only [Option.bind_eq_bind, Option.bind_eq_some_iff] at hfile
  obtain ⟨fields, -, hfile⟩ := hfile
  split at hfile
  · simp only [Option.bind_eq_some_iff] at hfile
    obtain ⟨_, -, _, -, inputs, hinputs, body, hbody, jump, hjump, bridges, hbridges, entries,
      hentries, failures, hfailures, _, -, _, -, _, -, ⟨⟩⟩ := hfile
    have hentries := decodeEntry?_yields.items hentries
    have hbridges := decodeBridge?_yields.items hbridges
    refine ⟨decodeInput?_yields.list.required hinputs, fun e he => (hentries e he).1,
      decodeFailure?_yields.items hfailures, fun line hline => ?_⟩
    rcases List.mem_append.mp hline with hline | hline
    · rcases List.mem_cons.mp hline with rfl | hline
      · exact ⟨decodeOp?_yields.list.required hbody, decodeArg?_yields.list.required hjump⟩
      · obtain ⟨e, he, rfl⟩ := List.mem_map.mp hline
        exact (hentries e he).2
    · obtain ⟨b, hb, hpair⟩ := List.mem_filterMap.mp hline
      obtain ⟨closing, hclosing, rfl⟩ := Option.map_eq_some_iff.mp hpair
      exact ⟨(hbridges b hb).1, (hbridges b hb).2 closing hclosing⟩
  · cases hfile

theorem hasValues_of_parse? {text : String} {file : TraceFile} (h : parse? text = some file) :
    file.HasValues := by
  obtain ⟨j, -, hj⟩ := Option.bind_eq_some_iff.mp h
  exact decode?_yields j file hj

end TraceFile

end HotLoop
