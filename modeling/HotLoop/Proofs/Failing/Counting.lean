import HotLoop.Proofs.Failing.Nesting
import Mathlib.Data.Nat.ModEq

/-!
# Guards count apart

A guard gets its hash when its fail arguments are stored, the next one of the counter. As many
hashes as there are slots, fetched one after another, lie in different slots, so the guards that
have got them do not disturb each other: each one fires at every multiple of its threshold,
whatever happens to the others. A busy guard does not count.
-/

namespace HotLoop

namespace Counter

/-- A counter from which `past` hashes have been fetched, and which has counted nothing. -/
def unused (bits past : Nat) : Counter := (fun c => c.fetch.2)^[past] (ofBits bits)

section Slots

variable {c : Counter}

theorem slot_clearLowBits (hbits : c.bits ≤ 24) (hash : UInt32) :
    c.slot (clearLowBits hash) = c.slot hash := by
  have hmask : ∀ s ≤ 32, 3 ≤ s → 0xfffffff8 >>> s = 2 ^ (32 - s) - 1 := by decide
  have hlt : hash.toNat >>> (32 - c.bits) < 2 ^ (32 - (32 - c.bits)) := by
    rw [Nat.shiftRight_eq_div_pow, Nat.div_lt_iff_lt_mul (Nat.two_pow_pos _), ← Nat.pow_add,
      Nat.sub_add_cancel (Nat.sub_le ..)]
    exact hash.toNat_lt
  have hand : (clearLowBits hash).toNat = hash.toNat &&& 0xfffffff8 := UInt32.toNat_and ..
  unfold slot
  rw [hand, Nat.shiftRight_and_distrib, hmask _ (Nat.sub_le ..) (by omega),
    Nat.and_two_pow_sub_one_of_lt_two_pow hlt]

theorem slot_ofNat (hbits : c.bits ≤ 24) (n : Nat) :
    c.slot (UInt32.ofNat (n * 2 ^ (32 - c.bits))) = n % c.size := by
  have hsize : 2 ^ 32 = 2 ^ c.bits * 2 ^ (32 - c.bits) := by
    rw [← Nat.pow_add, Nat.add_sub_of_le (by omega)]
  unfold slot size
  rw [UInt32.toNat_ofNat', hsize, Nat.mul_mod_mul_right, Nat.shiftRight_eq_div_pow,
    Nat.mul_div_cancel _ (Nat.two_pow_pos _), Nat.shiftLeft_eq, Nat.one_mul]

theorem nextHash_fetch {n : Nat} (h : c.nextHash = UInt32.ofNat (n * 2 ^ (32 - c.bits))) :
    c.fetch.2.nextHash = UInt32.ofNat ((n + 1) * 2 ^ (32 - c.bits)) := by
  unfold fetch step
  dsimp only
  rw [h, Nat.shiftLeft_eq, Nat.one_mul, Nat.add_mul, Nat.one_mul, UInt32.ofNat_add]

theorem unused_spec (bits past : Nat) :
    (unused bits past).bits = max 1 (min bits 24) ∧
      (unused bits past).nextHash = UInt32.ofNat (past * 2 ^ (32 - (unused bits past).bits)) ∧
      ∀ hash, (unused bits past).count hash = 0 := by
  induction past with
  | zero => exact ⟨rfl, by rw [Nat.zero_mul]; rfl, fun _ => rfl⟩
  | succ past ih =>
    obtain ⟨hbits, hnext, hcount⟩ := ih
    have hfetch : unused bits (past + 1) = (unused bits past).fetch.2 :=
      Function.iterate_succ_apply' ..
    rw [hfetch]
    exact ⟨hbits, nextHash_fetch hnext, hcount⟩

end Slots

section Ticks

variable (c : Counter) (hash : UInt32)

@[simp] theorem bits_tick (threshold : Nat) : (c.tick hash threshold).2.bits = c.bits := by
  unfold tick
  dsimp only
  split <;> rfl

@[simp] theorem nextHash_tick (threshold : Nat) :
    (c.tick hash threshold).2.nextHash = c.nextHash := by
  unfold tick
  dsimp only
  split <;> rfl

theorem tick_spec {c : Counter} {hash : UInt32} {threshold q : Nat}
    (hword : threshold < UInt32.size) (hcount : c.count hash = q % max threshold 1) :
    ((c.tick hash threshold).1 = true ↔ max threshold 1 ∣ q + 1) ∧
      ∀ hash', (c.tick hash threshold).2.count hash' =
        if c.slot hash' = c.slot hash then (q + 1) % max threshold 1 else c.count hash' := by
  have hsize : UInt32.size = 0xffffffff + 1 := rfl
  have hpos : 0 < max threshold 1 := Nat.lt_of_lt_of_le Nat.one_pos (Nat.le_max_right ..)
  have hlt : q % max threshold 1 < max threshold 1 := Nat.mod_lt _ hpos
  -- the count never gets as far as to saturate
  have hmin : min (c.count hash + 1) 0xffffffff = q % max threshold 1 + 1 := by omega
  have hmod : (q + 1) % max threshold 1 = (q % max threshold 1 + 1) % max threshold 1 :=
    (Nat.mod_add_mod ..).symm
  unfold tick
  dsimp only
  rw [hmin, Nat.dvd_iff_mod_eq_zero, hmod]
  split
  · have hround : q % max threshold 1 + 1 = max threshold 1 := by omega
    rw [hround, Nat.mod_self]
    exact ⟨iff_of_true rfl rfl, fun hash' => count_setCount ..⟩
  · have hnext : (q % max threshold 1 + 1) % max threshold 1 = q % max threshold 1 + 1 :=
      Nat.mod_eq_of_lt (by omega)
    rw [hnext]
    exact ⟨iff_of_false Bool.false_ne_true (Nat.succ_ne_zero _), fun hash' => count_setCount ..⟩

end Ticks

end Counter

theorem GuardRecord.status_together {r : GuardRecord} {hash : UInt32}
    (h : r.counting = .together (clearLowBits hash)) :
    r.status % 8 = (if r.busy then 1 else 0) ∧
      (r.busy = false → UInt32.ofNat r.status = clearLowBits hash) := by
  have hand : (clearLowBits hash).toNat = hash.toNat &&& 0xfffffff8 := UInt32.toNat_and ..
  have hlow : (clearLowBits hash).toNat % 2 ^ 3 = 0 := by
    rw [hand, Nat.and_mod_two_pow]
    exact Nat.and_zero _
  have hword : r.status = (clearLowBits hash).toNat + if r.busy then 1 else 0 := by
    rw [status, h]
    rfl
  refine ⟨by rw [hword]; split <;> omega, fun hidle => ?_⟩
  rw [hword, hidle]
  exact UInt32.ofNat_toNat

namespace Context

/-- Stores the fail arguments of a guard operation, which gives the guard a new hash. -/
def storeBoxes (c : Context) (g : Guard) (op : Operation) (boxes : List (Option Var)) : Context :=
  let (_, guards, counter) := c.guards.storeBoxes c.counter g op boxes
  { c with guards, counter }

/-- The slot in which all failures of a guard are counted together. -/
def slot? (c : Context) (g : Guard) : Option Nat :=
  match (c.guards.get g).counting with
  | .together hash => some (c.counter.slot hash)
  | .perValue _ _ => none

/-- Between the two contexts nothing is counted, and the guards are counted as before. -/
structure KeepsCounts (guards : List Guard) (c c' : Context) : Prop where
  counter : c'.counter = c.counter
  counting : ∀ g ∈ guards, (c'.guards.get g).counting = (c.guards.get g).counting

section Steps

variable {c c' : Context} {g : Guard} {guards : List Guard}

theorem KeepsCounts.slot? (h : KeepsCounts guards c c') (hg : g ∈ guards) :
    c'.slot? g = c.slot? g := by
  rw [Context.slot?, h.counting g hg, h.counter]
  rfl

theorem keepsCounts_startTracing (hg : c.guards.Has g) :
    KeepsCounts guards c (c.startTracing g) where
  counter := rfl
  counting g' _ := (GuardTable.get_startTracing hg g').1

theorem keepsCounts_doneTracing (hg : c.guards.Has g) :
    KeepsCounts guards c (c.doneTracing g) where
  counter := rfl
  counting g' _ := (GuardTable.get_doneTracing hg g').1

theorem counting_storeBoxes (hg : c.guards.Has g) (op : Operation) (boxes : List (Option Var))
    (g' : Guard) : ((c.storeBoxes g op boxes).guards.get g').counting =
      if g'.id = g.id then .together (clearLowBits c.counter.nextHash)
      else (c.guards.get g').counting := by
  have hlt : g.id < (c.guards.setCount g boxes.length).records.length :=
    (GuardTable.has_modify _).mpr hg
  unfold storeBoxes GuardTable.storeBoxes GuardTable.setCounting Counter.fetch
  dsimp only
  rw [GuardTable.get_modify]
  by_cases hid : g'.id = g.id
  · rw [if_pos ⟨hid, hlt⟩, if_pos hid]
  · rw [if_neg fun h => hid h.1, if_neg hid, GuardTable.setCount, GuardTable.get_modify,
      if_neg fun h => hid h.1]

theorem slot?_storeBoxes (hbits : c.counter.bits ≤ 24) (hg : c.guards.Has g) (op : Operation)
    (boxes : List (Option Var)) (g' : Guard) :
    (c.storeBoxes g op boxes).slot? g' =
      if g'.id = g.id then some (c.counter.slot c.counter.nextHash) else c.slot? g' := by
  unfold slot?
  rw [counting_storeBoxes hg]
  by_cases hid : g'.id = g.id
  · rw [if_pos hid, if_pos hid]
    exact congrArg some (Counter.slot_clearLowBits hbits _)
  · rw [if_neg hid, if_neg hid]
    rfl

theorem mustCompile_busy (hbusy : (c.guards.get g).busy = true) (driver : Driver)
    (frame : DeadFrame) : c.mustCompile driver g frame = (false, c) := by
  unfold mustCompile
  exact if_pos hbusy

theorem mustCompile_idle {hash : UInt32} (hidle : (c.guards.get g).busy = false)
    (hcounting : (c.guards.get g).counting = .together hash) (driver : Driver)
    (frame : DeadFrame) :
    let ticked := c.counter.tick hash (c.warmState driver).eagerness
    c.mustCompile driver g frame = (ticked.1, { c with counter := ticked.2 }) := by
  unfold mustCompile
  dsimp only
  rw [hidle, hcounting]
  rfl

end Steps

end Context

/-- A question whether a bridge is to be traced from a guard, and the answer to it. -/
structure Asked where
  guard : Guard
  busy : Bool
  answer : Bool
  deriving DecidableEq

/-- The question that is asked when a guard fails. -/
def Context.asked (c : Context) (driver : Driver) (g : Guard) (frame : DeadFrame) : Asked :=
  ⟨g, (c.guards.get g).busy, (c.mustCompile driver g frame).1⟩

/-- How often a guard has been asked about while it was not busy. -/
def idleCalls (g : Guard) (asked : List Asked) : Nat :=
  asked.countP fun a => a.guard = g ∧ a.busy = false

theorem idleCalls_concat (g : Guard) (asked : List Asked) (a : Asked) :
    idleCalls g (asked ++ [a]) =
      idleCalls g asked + if a.guard = g ∧ a.busy = false then 1 else 0 := by
  rw [idleCalls, List.countP_append, List.countP_singleton, idleCalls]
  simp only [decide_eq_true_eq]

/-- The `n`-th question about an idle guard is answered with yes if `n` is a multiple of its
threshold, all others with no. -/
def RightlyAnswered (threshold : Guard → UInt32) (asked : List Asked) : Prop :=
  ∀ before a, before ++ [a] <+: asked →
    (a.answer = true ↔
      a.busy = false ∧ max (threshold a.guard).toNat 1 ∣ idleCalls a.guard (before ++ [a]))

section Tallies

variable (bits past : Nat) (threshold : Guard → UInt32)

/--
Guards have got their hashes one after another, not more than there are slots, from a counter with
which nothing had been counted, and nothing but their failures is counted since. When a guard gets
its hash, when its failures are counted and what else happens in between does not matter.
-/
inductive Tallied : List Guard → List Asked → Context → Prop where
  | start (c : Context) (hunused : c.counter = .unused bits past) : Tallied [] [] c
  | store {guards : List Guard} {asked : List Asked} {c : Context} (h : Tallied guards asked c)
    (g : Guard) (op : Operation) (boxes : List (Option Var)) (hg : c.guards.Has g)
    (hnew : ∀ g' ∈ guards, g'.id ≠ g.id) (hroom : guards.length < 2 ^ max 1 (min bits 24)) :
    Tallied (guards ++ [g]) asked (c.storeBoxes g op boxes)
  | ask {guards : List Guard} {asked : List Asked} {c : Context} (h : Tallied guards asked c)
    (driver : Driver) (g : Guard) (frame : DeadFrame) (hg : g ∈ guards)
    (heager : (c.warmState driver).eagerness = (threshold g).toNat) :
    Tallied guards (asked ++ [c.asked driver g frame]) (c.mustCompile driver g frame).2
  | other {guards : List Guard} {asked : List Asked} {c c' : Context} (h : Tallied guards asked c)
    (hkeeps : c.KeepsCounts guards c') : Tallied guards asked c'

/-- Every guard has a slot of its own, which counts how often it has been asked about. -/
structure CountedApart (guards : List Guard) (asked : List Asked) (c : Context) : Prop where
  bits : c.counter.bits = max 1 (min bits 24)
  nextHash : c.counter.nextHash =
    UInt32.ofNat ((past + guards.length) * 2 ^ (32 - c.counter.bits))
  room : guards.length ≤ c.counter.size
  hash : ∀ g ∈ guards, ∃ hash, (c.guards.get g).counting = .together (clearLowBits hash)
  slot : ∀ i g, guards[i]? = some g → c.slot? g = some ((past + i) % c.counter.size)
  asked_mem : ∀ a ∈ asked, a.guard ∈ guards
  count : ∀ hash, ∀ g ∈ guards, c.slot? g = some (c.counter.slot hash) →
    c.counter.count hash = idleCalls g asked % max (threshold g).toNat 1
  zero : ∀ hash, (∀ g ∈ guards, c.slot? g ≠ some (c.counter.slot hash)) →
    c.counter.count hash = 0
  answers : RightlyAnswered threshold asked

variable {bits past threshold} {guards : List Guard} {asked : List Asked} {c c' : Context}

namespace CountedApart

theorem start (hunused : c.counter = .unused bits past) :
    CountedApart bits past threshold [] [] c := by
  obtain ⟨hbits, hnext, hcount⟩ := Counter.unused_spec bits past
  rw [← hunused] at hbits hnext hcount
  exact {
    bits := hbits
    nextHash := hnext
    room := Nat.zero_le _
    hash := fun g hg => by cases hg
    slot := fun i g hg => by cases hg
    asked_mem := fun a ha => by cases ha
    count := fun hash g hg => by cases hg
    zero := fun hash _ => hcount hash
    answers := fun before a hprefix => by simp at hprefix }

theorem other (h : CountedApart bits past threshold guards asked c)
    (hkeeps : c.KeepsCounts guards c') : CountedApart bits past threshold guards asked c' where
  bits := hkeeps.counter ▸ h.bits
  nextHash := hkeeps.counter ▸ h.nextHash
  room := hkeeps.counter ▸ h.room
  hash g hg := hkeeps.counting g hg ▸ h.hash g hg
  slot i g hg := by
    rw [hkeeps.slot? (List.mem_of_getElem? hg), hkeeps.counter]
    exact h.slot i g hg
  asked_mem := h.asked_mem
  count hash g hg hslot := by
    rw [hkeeps.slot? hg] at hslot
    rw [hkeeps.counter] at hslot ⊢
    exact h.count hash g hg hslot
  zero hash hfree := by
    rw [hkeeps.counter] at hfree ⊢
    exact h.zero hash fun g hg => hkeeps.slot? hg ▸ hfree g hg
  answers := h.answers

/-- The first slots behind the last fetched one are those of the guards. -/
theorem index_eq (h : CountedApart bits past threshold guards asked c) {g : Guard} {i j : Nat}
    (hi : guards[i]? = some g) (hj : j < c.counter.size)
    (hslot : c.slot? g = some ((past + j) % c.counter.size)) : i = j := by
  rw [h.slot i g hi, Option.some.injEq] at hslot
  have hlt := Nat.lt_of_lt_of_le (List.getElem?_eq_some_iff.mp hi).1 h.room
  exact (Nat.ModEq.add_left_cancel' past hslot).eq_of_lt_of_lt hlt hj

theorem eq_of_slot? (h : CountedApart bits past threshold guards asked c) {g g' : Guard}
    (hg : g ∈ guards) (hg' : g' ∈ guards) (heq : c.slot? g = c.slot? g') : g = g' := by
  obtain ⟨i, hi⟩ := List.mem_iff_getElem?.mp hg
  obtain ⟨j, hj⟩ := List.mem_iff_getElem?.mp hg'
  have hlt := Nat.lt_of_lt_of_le (List.getElem?_eq_some_iff.mp hj).1 h.room
  rw [h.index_eq hi hlt (heq.trans (h.slot j g' hj)), hj] at hi
  exact (Option.some.inj hi).symm

theorem idleCalls_eq_zero (h : CountedApart bits past threshold guards asked c) {g : Guard}
    (hg : g ∉ guards) : idleCalls g asked = 0 := by
  refine List.countP_eq_zero.mpr fun a ha heq => hg ?_
  have hmem := h.asked_mem a ha
  rwa [(of_decide_eq_true heq).1] at hmem

/-- A new guard gets the slot behind the last one, which none of the others has. -/
theorem store (h : CountedApart bits past threshold guards asked c) {g : Guard} (op : Operation)
    (boxes : List (Option Var)) (hg : c.guards.Has g) (hnew : ∀ g' ∈ guards, g'.id ≠ g.id)
    (hroom : guards.length < c.counter.size) :
    CountedApart bits past threshold (guards ++ [g]) asked (c.storeBoxes g op boxes) := by
  have hbits : c.counter.bits ≤ 24 := by
    rw [h.bits]
    omega
  have hold (g' : Guard) (hg' : g' ∈ guards) : (c.storeBoxes g op boxes).slot? g' = c.slot? g' := by
    rw [Context.slot?_storeBoxes hbits hg, if_neg (hnew g' hg')]
  have hnext : (c.storeBoxes g op boxes).slot? g =
      some ((past + guards.length) % c.counter.size) := by
    rw [Context.slot?_storeBoxes hbits hg, if_pos rfl, h.nextHash, Counter.slot_ofNat hbits]
  have hfree (g' : Guard) (hg' : g' ∈ guards) :
      c.slot? g' ≠ some ((past + guards.length) % c.counter.size) := by
    intro hslot
    obtain ⟨i, hi⟩ := List.mem_iff_getElem?.mp hg'
    have hlt := (List.getElem?_eq_some_iff.mp hi).1
    exact hlt.ne (h.index_eq hi hroom hslot)
  refine ⟨h.bits, ?_, ?_, fun g' hg' => ?_, fun i g' hg' => ?_, fun a ha => ?_,
    fun hash g' hg' hslot => ?_, fun hash hzero => ?_, h.answers⟩
  · rw [List.length_append]
    exact Counter.nextHash_fetch h.nextHash
  · rw [List.length_append]
    exact hroom
  · rw [Context.counting_storeBoxes hg]
    rcases List.mem_append.mp hg' with hg' | hg'
    · rw [if_neg (hnew g' hg')]
      exact h.hash g' hg'
    · rw [List.mem_singleton.mp hg', if_pos rfl]
      exact ⟨_, rfl⟩
  · rw [List.getElem?_append] at hg'
    split at hg'
    · rw [hold g' (List.mem_of_getElem? hg')]
      exact h.slot i g' hg'
    · rename_i hge
      obtain ⟨hlt, rfl⟩ := List.getElem?_eq_some_iff.mp hg'
      have hi : i = guards.length := by
        simp only [List.length_singleton] at hlt
        omega
      subst hi
      rw [List.getElem_singleton]
      exact hnext
  · exact List.mem_append_left _ (h.asked_mem a ha)
  · rcases List.mem_append.mp hg' with hg' | hg'
    · rw [hold g' hg'] at hslot
      exact h.count hash g' hg' hslot
    · -- the slot of the new guard has never been counted in
      obtain rfl := List.mem_singleton.mp hg'
      rw [h.idleCalls_eq_zero fun hmem => hnew g' hmem rfl, Nat.zero_mod]
      rw [hnext] at hslot
      exact h.zero hash fun g hg => hslot ▸ hfree g hg
  · refine h.zero hash fun g' hg' => ?_
    rw [← hold g' hg']
    exact hzero g' (List.mem_append_left _ hg')

theorem ask_busy (h : CountedApart bits past threshold guards asked c) {g : Guard}
    (hg : g ∈ guards) :
    CountedApart bits past threshold guards (asked ++ [⟨g, true, false⟩]) c where
  bits := h.bits
  nextHash := h.nextHash
  room := h.room
  hash := h.hash
  slot := h.slot
  asked_mem a ha := by
    rcases List.mem_append.mp ha with ha | ha
    · exact h.asked_mem a ha
    · exact List.mem_singleton.mp ha ▸ hg
  count hash g' hg' hslot := by
    rw [idleCalls_concat, if_neg (by simp), Nat.add_zero]
    exact h.count hash g' hg' hslot
  zero := h.zero
  answers before a hprefix := by
    rcases List.prefix_concat_iff.mp hprefix with heq | hprefix
    · obtain ⟨-, ha⟩ := List.append_inj' heq rfl
      cases ha
      simp
    · exact h.answers before a hprefix

theorem ask_idle (h : CountedApart bits past threshold guards asked c) {g : Guard} (hg : g ∈ guards)
    {hash : UInt32} (hslot : c.slot? g = some (c.counter.slot hash)) :
    let ticked := c.counter.tick hash (threshold g).toNat
    CountedApart bits past threshold guards (asked ++ [⟨g, false, ticked.1⟩])
      { c with counter := ticked.2 } := by
  intro ticked
  have hcount := h.count hash g hg hslot
  obtain ⟨hfires, hcounts⟩ := Counter.tick_spec (threshold g).toNat_lt hcount
  have hbits : ticked.2.bits = c.counter.bits := Counter.bits_tick ..
  have hsize : ticked.2.size = c.counter.size := by rw [Counter.size, hbits, Counter.size]
  have hsame (hash' : UInt32) : ticked.2.slot hash' = c.counter.slot hash' := by
    rw [Counter.slot, hbits, Counter.slot]
  have hslots (g' : Guard) : { c with counter := ticked.2 }.slot? g' = c.slot? g' := by
    unfold Context.slot?
    simp only [hsame]
  refine ⟨hbits.trans h.bits, ?_, hsize ▸ h.room, h.hash, fun i g' hi => ?_, fun a ha => ?_,
    fun hash' g' hg' hslot' => ?_, fun hash' hfree => ?_, fun before a hprefix => ?_⟩
  · rw [hbits, ← h.nextHash]
    exact Counter.nextHash_tick ..
  · rw [hslots, hsize]
    exact h.slot i g' hi
  · rcases List.mem_append.mp ha with ha | ha
    · exact h.asked_mem a ha
    · exact List.mem_singleton.mp ha ▸ hg
  · rw [hslots, hsame] at hslot'
    rw [hcounts, idleCalls_concat]
    by_cases hid : g = g'
    · subst hid
      rw [if_pos (Option.some.inj (hslot'.symm.trans hslot)), if_pos ⟨rfl, rfl⟩]
    · rw [if_neg (fun heq => hid (h.eq_of_slot? hg hg' ?_)), if_neg fun heq => hid heq.1,
        Nat.add_zero]
      · exact h.count hash' g' hg' hslot'
      · rw [hslot, hslot', heq]
  · have hother : c.counter.slot hash' ≠ c.counter.slot hash := fun heq =>
      hfree g hg (by rw [hslots, hsame, hslot, heq])
    rw [hcounts, if_neg hother]
    exact h.zero hash' fun g' hg' heq => hfree g' hg' (by rw [hslots, hsame, heq])
  · rcases List.prefix_concat_iff.mp hprefix with heq | hprefix
    · obtain ⟨rfl, ha⟩ := List.append_inj' heq rfl
      cases ha
      rw [idleCalls_concat, if_pos ⟨rfl, rfl⟩, hfires]
      exact (and_iff_right rfl).symm
    · exact h.answers before a hprefix

end CountedApart

theorem Tallied.countedApart (h : Tallied bits past threshold guards asked c) :
    CountedApart bits past threshold guards asked c := by
  induction h with
  | start c hunused => exact .start hunused
  | @store guards asked c _ g op boxes hg hnew hroom ih =>
    refine ih.store op boxes hg hnew ?_
    rw [Counter.size, Nat.shiftLeft_eq, Nat.one_mul, ih.bits]
    exact hroom
  | @ask guards asked c _ driver g frame hg heager ih =>
    unfold Context.asked
    cases hbusy : (c.guards.get g).busy with
    | true =>
      rw [Context.mustCompile_busy hbusy]
      exact ih.ask_busy hg
    | false =>
      obtain ⟨hash, hcounting⟩ := ih.hash g hg
      rw [Context.mustCompile_idle hbusy hcounting, heager]
      exact ih.ask_idle hg (by rw [Context.slot?, hcounting])
  | other _ hkeeps ih => exact ih.other hkeeps

/--
The failures of a guard fire at every multiple of its threshold, whatever happens to other guards.
It can be read off the status word of a guard whether it is busy and, if not, what its slot is; no
two guards have the same slot. A busy guard is not counted.
-/
theorem Tallied.rightlyAnswered (h : Tallied bits past threshold guards asked c) :
    RightlyAnswered threshold asked ∧
      (∀ g ∈ guards,
        let r := c.guards.get g
        (r.status % 8 = if r.busy then 1 else 0) ∧
          (r.busy = false → c.slot? g = some (c.counter.slot (UInt32.ofNat r.status)))) ∧
      (∀ g ∈ guards, ∀ g' ∈ guards, c.slot? g = c.slot? g' → g = g') ∧
      ∀ g driver frame, (c.guards.get g).busy = true →
        c.mustCompile driver g frame = (false, c) := by
  have happart := h.countedApart
  refine ⟨happart.answers, fun g hg => ?_, fun g hg g' hg' => happart.eq_of_slot? hg hg',
    fun g driver frame hbusy => Context.mustCompile_busy hbusy driver frame⟩
  obtain ⟨hash, hcounting⟩ := happart.hash g hg
  obtain ⟨hbusy, hword⟩ := GuardRecord.status_together hcounting
  refine ⟨hbusy, fun hidle => ?_⟩
  rw [hword hidle, Context.slot?, hcounting]

end Tallies

private theorem Tallied.ask_of_eq {bits past : Nat} {threshold : Guard → UInt32}
    {guards : List Guard} {asked : List Asked} {c : Context} {a : Asked} {driver : Driver}
    {frame : DeadFrame} (h : Tallied bits past threshold guards asked c)
    (ha : c.asked driver a.guard frame = a) (hg : a.guard ∈ guards)
    (heager : (c.warmState driver).eagerness = (threshold a.guard).toNat) :
    Tallied bits past threshold guards (asked ++ [a]) (c.mustCompile driver a.guard frame).2 := by
  have hask := h.ask driver a.guard frame hg heager
  rwa [ha] at hask

/-- Two guards, a table of two slots of which the second is next, and the threshold two. -/
def twoGuards : Context where
  collector := .ofMaxAge 0
  counter := .unused 0 1
  guards := ⟨[{}, {}]⟩
  warm := .ofList [(0, { eagerness := 2 })]

/-- Between the failures of the first guard there is one of the second, and one while it is busy. -/
theorem Tallied.rightlyAnswered_twoGuards :
    let first : Guard := ⟨0, .guardTrue, .plain⟩
    let second : Guard := ⟨1, .guardFalse, .plain⟩
    let asked : List Asked := [⟨first, false, false⟩, ⟨second, false, false⟩, ⟨first, true, false⟩,
      ⟨first, false, true⟩, ⟨second, false, true⟩]
    ∃ c, Tallied 0 1 (fun _ => 2) [first, second] asked c ∧ RightlyAnswered (fun _ => 2) asked ∧
      (c.slot? first, c.slot? second) = (some 1, some 0) := by
  intro first second asked
  let frame : DeadFrame := { descr := .guard first, values := [] }
  let stored := (twoGuards.storeBoxes first default []).storeBoxes second default []
  let once := (stored.mustCompile default first frame).2
  let failed := (once.mustCompile default second frame).2
  let tracing := failed.startTracing first
  let done := (tracing.mustCompile default first frame).2.doneTracing first
  let twice := (done.mustCompile default first frame).2
  have hstored : Tallied 0 1 (fun _ => 2) [first, second] [] stored :=
    ((Tallied.start twoGuards rfl).store first default [] (by decide) (by decide) (by decide)).store
      second default [] (by decide) (by decide) (by decide)
  have honce : Tallied 0 1 (fun _ => 2) [first, second] (asked.take 1) once :=
    hstored.ask_of_eq (a := ⟨first, _, _⟩) (by decide +kernel) (by decide) (by decide +kernel)
  have hfailed : Tallied 0 1 (fun _ => 2) [first, second] (asked.take 2) failed :=
    honce.ask_of_eq (a := ⟨second, _, _⟩) (by decide +kernel) (by decide) (by decide +kernel)
  have htracing : Tallied 0 1 (fun _ => 2) [first, second] (asked.take 2) tracing :=
    hfailed.other (Context.keepsCounts_startTracing (by decide +kernel))
  have hbusy : Tallied 0 1 (fun _ => 2) [first, second] (asked.take 3)
      (tracing.mustCompile default first frame).2 :=
    htracing.ask_of_eq (a := ⟨first, _, _⟩) (by decide +kernel) (by decide) (by decide +kernel)
  have hdone : Tallied 0 1 (fun _ => 2) [first, second] (asked.take 3) done :=
    hbusy.other (Context.keepsCounts_doneTracing (by decide +kernel))
  have htwice : Tallied 0 1 (fun _ => 2) [first, second] (asked.take 4) twice :=
    hdone.ask_of_eq (a := ⟨first, _, _⟩) (by decide +kernel) (by decide) (by decide +kernel)
  have hall : Tallied 0 1 (fun _ => 2) [first, second] asked
      (twice.mustCompile default second frame).2 :=
    htwice.ask_of_eq (a := ⟨second, _, _⟩) (by decide +kernel) (by decide) (by decide +kernel)
  exact ⟨_, hall, hall.rightlyAnswered.1, by decide +kernel⟩

end HotLoop
