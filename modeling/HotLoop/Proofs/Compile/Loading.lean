import HotLoop.Proofs.Consistency.Prologue
import HotLoop.Proofs.Execution.Trail
import Mathlib.Algebra.GroupWithZero.Nat

/-!
# What a prologue loads

A prologue stands for the fields that a tracer has passed in. It reads them off the frame object, one
by one, and the code behind it reaches the same operations with the same values as the recorded code
does with the fields as its last inputs.
-/

namespace HotLoop

structure HeldArray where
  array : Value
  items : List Value
  deriving DecidableEq, Repr, Inhabited

/-- A frame object, the values of its static fields and its arrays. -/
structure HeldFields where
  object : Value
  statics : List Value
  arrays : List HeldArray
  deriving DecidableEq, Repr, Inhabited

/-- The values that a tracer passes in. -/
def HeldFields.values (held : HeldFields) : List Value :=
  held.statics ++ held.arrays.flatMap (·.items)

def Virtualizable.itemCount (fields : Virtualizable) (address : UInt64) : Nat :=
  ((List.range fields.arrayFields.length).map (fields.arrayLength address)).sum

/-- The object has a value for every field, and as many items as the layout says. -/
structure HeldFields.Fits (held : HeldFields) (fields : Virtualizable) (address : UInt64) :
    Prop where
  statics : held.statics.length = fields.staticFields.length
  arrays : held.arrays.map (·.items.length) =
    (List.range fields.arrayFields.length).map (fields.arrayLength address)

theorem HeldFields.Fits.length_items {held : HeldFields} {fields : Virtualizable}
    {address : UInt64} (h : held.Fits fields address) :
    (held.arrays.flatMap (·.items)).length = fields.itemCount address := by
  rw [List.length_flatMap, h.arrays]
  rfl

namespace Reached

/-- Reads a field of an object. -/
def field (object : Value) (field : FieldDescr) : Reached where
  op := .getfieldGc
  descr := some (.field field)
  args := [object]

/-- Reads an item of an array. -/
def item (array : Value) (items : ArrayDescr) (i : Nat) : Reached where
  op := .getarrayitemGc
  descr := some (.array items)
  args := [array, .int (Int64.ofNat i)]

end Reached

namespace Virtualizable

def arrayLoads (object : Value) :
    List FieldDescr → List ArrayDescr → List HeldArray → List Reached
  | field :: fields, items :: itemArrays, held :: arrays =>
    .field object field :: (List.range held.items.length).map (.item held.array items) ++
      arrayLoads object fields itemArrays arrays
  | _, _, _ => []

/-- The loads of a prologue. -/
def loads (fields : Virtualizable) (held : HeldFields) : List Reached :=
  fields.staticFields.map (.field held.object) ++
    arrayLoads held.object fields.arrayFields fields.itemArrays held.arrays

end Virtualizable

/-- Loads give what the object and its arrays hold, and change nothing. -/
structure Processor.Holds {σ : Type} (P : Processor σ) (st : σ) (fields : Virtualizable)
    (held : HeldFields) : Prop where
  statics : ∀ (k : Nat) field x, fields.staticFields[k]? = some field → held.statics[k]? = some x →
    P (.field held.object field) st = some (x, st)
  arrays : ∀ (k : Nat) field a, fields.arrayFields[k]? = some field → held.arrays[k]? = some a →
    P (.field held.object field) st = some (a.array, st)
  items : ∀ (k : Nat) items a (i : Nat) x, fields.itemArrays[k]? = some items →
    held.arrays[k]? = some a → a.items[i]? = some x →
    P (.item a.array items i) st = some (x, st)

namespace Env

theorem bind_append_of_notMem {ρ : Env} {vs ws : List Var} {xs ys : List Value} {i : Nat}
    (hlen : vs.length = xs.length) (hi : i ∉ ws.map (·.id)) :
    ρ.bind (vs ++ ws) (xs ++ ys) i = ρ.bind vs xs i := by
  induction vs generalizing xs with
  | nil =>
    obtain rfl := List.length_eq_zero_iff.mp hlen.symm
    -- none of the variables is number `i`
    induction ws generalizing ys with
    | nil => rfl
    | cons w ws ih =>
      cases ys with
      | nil => rfl
      | cons y ys =>
        obtain ⟨hne, hi⟩ := not_or.mp (List.mem_cons.not.mp hi)
        exact (set_of_ne hne).trans (ih hi)
  | cons v vs ih =>
    cases xs with
    | nil => cases hlen
    | cons x xs =>
      have hrest := ih (Nat.succ.inj hlen)
      by_cases heq : i = v.id
      · subst heq
        exact (set_self _ v x).trans (set_self _ v x).symm
      · exact (set_of_ne heq).trans (hrest.trans (set_of_ne heq).symm)

theorem map_bind {ρ : Env} {vs : List Var} {xs : List Value} (h : (vs.map (·.id)).Nodup)
    (hlen : vs.length = xs.length) : vs.map (fun v => ρ.bind vs xs v.id) = xs := by
  refine List.ext_getElem? fun k => ?_
  rw [List.getElem?_map]
  cases hv : vs[k]? with
  | none =>
    rw [List.getElem?_eq_none_iff, hlen, ← List.getElem?_eq_none_iff] at hv
    rw [hv]
    rfl
  | some v =>
    obtain ⟨hk, -⟩ := List.getElem?_eq_some_iff.mp hv
    have hx : xs[k]? = some xs[k] := List.getElem?_eq_getElem (hlen ▸ hk)
    rw [Option.map_some, bind_of_getElem? h hv hx, hx]

end Env

namespace Prologue

/--
What a prologue is measured by: the environment where all fields have been passed in, and the one
that it starts in. The fields are below `next`, and none of them is a red argument.
-/
structure Setting (σ : Type) where
  processor : Processor σ
  state : σ
  passed : Env
  start : Env
  reds : List Nat
  fields : List Var
  next : Nat
  fields_lt : ∀ v ∈ fields, v.id < next
  apart : ∀ v ∈ fields, v.id ∉ reds

structure Loading where
  prologue : Prologue
  rename : Nat → Nat
  visible : List Nat
  env : Env
  reached : List Reached

namespace Setting

variable {σ : Type} {s : Setting σ} {l l' l'' : Loading}

/-- The loads read, and behind them all variables but the pending ones have what was passed in. -/
structure Carries (s : Setting σ) (l : Loading) : Prop where
  loaded : Loaded s.reds s.fields s.next l.prologue l.rename l.visible
  reads : s.processor.Reads s.state l.prologue.operations s.start l.reached l.env
  means : ∀ i < s.next, i ∉ l.prologue.pending.map (·.id) → l.env (l.rename i) = s.passed i

/-- Some more loads, of which some are for inputs. -/
structure Advances (l l' : Loading) (loads inputs : Nat) (reached : List Reached) : Prop where
  pending : l'.prologue.pending = l.prologue.pending.drop inputs
  next : l'.prologue.values.next = l.prologue.values.next + loads
  reached : l'.reached = l.reached ++ reached
  keeps : ∀ i ∈ l.visible, i ∈ l'.visible ∧ l'.env i = l.env i

namespace Advances

variable {m n m' n' : Nat} {reached reached' : List Reached}

theorem refl (l : Loading) : Advances l l 0 0 [] where
  pending := rfl
  next := rfl
  reached := (List.append_nil _).symm
  keeps _ hi := ⟨hi, rfl⟩

theorem trans (h : Advances l l' m n reached) (h' : Advances l' l'' m' n' reached') :
    Advances l l'' (m + m') (n + n') (reached ++ reached') where
  pending := by rw [h'.pending, h.pending, List.drop_drop]
  next := by rw [h'.next, h.next, Nat.add_assoc]
  reached := by rw [h'.reached, h.reached, List.append_assoc]
  keeps i hi := by
    obtain ⟨hmem, heq⟩ := h.keeps i hi
    obtain ⟨hmem', heq'⟩ := h'.keeps i hmem
    exact ⟨hmem', heq'.trans heq⟩

theorem eval (h : Advances l l' m n reached) {args : List Arg}
    (hargs : ∀ u ∈ args.filterMap Arg.var?, u.id ∈ l.visible) :
    args.map (·.eval l'.env) = args.map (·.eval l.env) := by
  refine List.map_congr_left fun a ha => ?_
  cases a with
  | const c => rfl
  | var v => exact (h.keeps v.id (hargs v (Arg.mem_filterMap_var?_iff.mpr ha))).2

end Advances

namespace Carries

variable {object : Var} {op : Operation} {kind : Kind} {x : Value}

private theorem rename_lt (h : s.Carries l) {i : Nat} (hi : i < s.next)
    (hpending : i ∉ l.prologue.pending.map (·.id)) : l.rename i < l.prologue.values.next := by
  by_cases hmem : i ∈ s.fields.map (·.id)
  · obtain ⟨v, hv, rfl⟩ := List.mem_map.mp hmem
    have hdone := (h.loaded.loaded v hv).resolve_left fun hv' =>
      hpending (List.mem_map_of_mem hv')
    exact h.loaded.visible_lt _ hdone.1
  · rw [h.loaded.fixed i hmem]
    exact Nat.lt_of_lt_of_le hi h.loaded.next_le

private theorem emit (h : s.Carries l) (hfinal : op.isFinal = false) (hlabel : op.opcode ≠ .label)
    (huses : ∀ v ∈ op.uses, v.id ∈ l.visible)
    (hresult : op.result = some ⟨l.prologue.values.next, kind⟩)
    (hread : s.processor (op.reached l.env) s.state = some (x, s.state)) :
    s.Carries {
      prologue := { l.prologue with
        values := ⟨l.prologue.values.next + 1⟩
        operations := HotLoop.emit l.prologue.operations l.prologue.forwarding op }
      rename := l.rename
      visible := l.prologue.values.next :: l.visible
      env := l.env.set ⟨l.prologue.values.next, kind⟩ x
      reached := l.reached ++ [op.reached l.env] } := by
  have hfixed : ∀ v ∈ op.uses, v.id ∈ l.visible ∧ l.rename v.id = v.id := fun v hv =>
    ⟨huses v hv, h.loaded.fixed_of_visible s.fields_lt s.apart (huses v hv)⟩
  have hreached : (l.prologue.forwarding.apply op).reached l.env = op.reached l.env :=
    Processor.reached_apply h.loaded.renames fun v hv => by rw [(hfixed v hv).2]
  refine ⟨h.loaded.emit hfinal hlabel hfixed hresult, h.reads.append ?_, fun i hi hpending => ?_⟩
  · have hset : l.env.set ⟨l.prologue.values.next, kind⟩ x =
        l.env.assign (l.prologue.forwarding.apply op).result x := by
      rw [Forwarding.apply, hresult]
      rfl
    rw [hset, ← hreached]
    exact .single hfinal hlabel (hreached ▸ hread)
  · exact (Env.set_of_ne (Nat.ne_of_lt (h.rename_lt hi hpending))).trans (h.means i hi hpending)

private theorem forward (h : s.Carries l) {v w : Var} {pending : List Var}
    (hpending : l.prologue.pending = v :: pending) (hw : w.id ∈ l.visible) (hle : s.next ≤ w.id)
    (hend : l.prologue.forwarding.IsEnd (.var w)) (hvalue : l.env w.id = s.passed v.id) :
    s.Carries { l with
      prologue := { l.prologue with
        pending, forwarding := l.prologue.forwarding.forward v (.var w) }
      rename := Function.update l.rename v.id w.id } := by
  refine ⟨h.loaded.forward s.fields_lt hpending hw hle hend, h.reads, fun i hi hnot => ?_⟩
  by_cases heq : i = v.id
  · subst heq
    dsimp only
    rw [Function.update_self]
    exact hvalue
  · dsimp only
    rw [Function.update_of_ne heq]
    refine h.means i hi fun hmem => ?_
    rw [hpending, List.map_cons] at hmem
    exact (List.mem_cons.mp hmem).elim heq hnot

variable {opcode : OpCode} {args : List Arg} {descr : Descr}

private theorem load_facts (descr : Descr) (hopcode : opcode = .getfieldGc ∨ opcode = .getarrayitemGc)
    (hargs : ∀ u ∈ args.filterMap Arg.var?, u.id ∈ l.visible) (r : Option Var) :
    let op : Operation := { opcode, args, result := r, descr := some descr }
    op.isFinal = false ∧ op.opcode ≠ .label ∧ ∀ v ∈ op.uses, v.id ∈ l.visible := by
  refine ⟨?_, ?_, fun v hv => hargs v ?_⟩
  · rcases hopcode with rfl | rfl <;> rfl
  · rcases hopcode with rfl | rfl <;> exact OpCode.noConfusion
  · exact (List.mem_append.mp hv).elim id fun hv => by cases hv

theorem load (h : s.Carries l) (opcode : OpCode) (args : List Arg)
    (hroom : l.prologue.values.next < ValueIds.limit)
    (hopcode : opcode = .getfieldGc ∨ opcode = .getarrayitemGc)
    (hargs : ∀ u ∈ args.filterMap Arg.var?, u.id ∈ l.visible)
    (hread : s.processor ⟨opcode, some descr, args.map (·.eval l.env), none⟩ s.state =
      some (x, s.state)) (kind : Kind) :
    ∃ v l', l.prologue.load opcode args kind descr = .ok (v, l'.prologue) ∧ s.Carries l' ∧
      Advances l l' 1 0 [⟨opcode, some descr, args.map (·.eval l.env), none⟩] ∧
      v.id = l.prologue.values.next ∧ v.id ∈ l'.visible ∧ l'.env v.id = x ∧
      l'.prologue.forwarding = l.prologue.forwarding := by
  obtain ⟨hfinal, hlabel, huses⟩ := load_facts descr hopcode hargs
    (some ⟨l.prologue.values.next, kind⟩)
  refine ⟨⟨l.prologue.values.next, kind⟩, _, ?_, h.emit hfinal hlabel huses rfl hread,
    ⟨rfl, rfl, rfl, fun i hi => ⟨List.mem_cons_of_mem _ hi, Env.set_of_ne ?_⟩⟩, rfl,
    List.mem_cons_self .., Env.set_self _ ⟨l.prologue.values.next, kind⟩ x, rfl⟩
  · simp only [Prologue.load, ValueIds.fresh, hroom, if_true, bind, Except.bind]
    rfl
  · exact Nat.ne_of_lt (h.loaded.visible_lt i hi)

theorem loadNext (h : s.Carries l) (hroom : l.prologue.values.next < ValueIds.limit) {v : Var}
    {pending : List Var} (hpending : l.prologue.pending = v :: pending)
    (hopcode : opcode = .getfieldGc ∨ opcode = .getarrayitemGc)
    (hargs : ∀ u ∈ args.filterMap Arg.var?, u.id ∈ l.visible)
    (hread : s.processor ⟨opcode, some descr, args.map (·.eval l.env), none⟩ s.state =
      some (s.passed v.id, s.state)) :
    ∃ l', l.prologue.loadNext opcode args descr = .ok l'.prologue ∧ s.Carries l' ∧
      Advances l l' 1 1 [⟨opcode, some descr, args.map (·.eval l.env), none⟩] := by
  obtain ⟨w, l₁, hload, h₁, hadv, hw, hvisible, hvalue, hsame⟩ :=
    h.load opcode args hroom hopcode hargs hread v.kind
  have hpending₁ : l₁.prologue.pending = v :: pending := hadv.pending.trans hpending
  have hend : l₁.prologue.forwarding.IsEnd (.var w) := by
    rw [hsame]
    exact h.loaded.below.isEnd (Nat.le_of_eq hw.symm)
  refine ⟨_, ?_, h₁.forward hpending₁ hvisible (hw ▸ h.loaded.next_le) hend hvalue, ?_, hadv.next,
    hadv.reached, hadv.keeps⟩
  · simp only [Prologue.loadNext, hpending, hload, bind, Except.bind]
    rfl
  · rw [hpending]
    rfl

theorem loadAll {α : Type} (h : s.Carries l) (opcode : OpCode) (args : α → List Arg)
    (descr : α → Descr) (as : List α) (hroom : l.prologue.values.next + as.length ≤ ValueIds.limit)
    (hopcode : opcode = .getfieldGc ∨ opcode = .getarrayitemGc)
    (hargs : ∀ a ∈ as, ∀ u ∈ (args a).filterMap Arg.var?, u.id ∈ l.visible)
    (hlen : as.length ≤ l.prologue.pending.length)
    (hread : ∀ (k : Nat) a v, as[k]? = some a → l.prologue.pending[k]? = some v →
      s.processor ⟨opcode, some (descr a), (args a).map (·.eval l.env), none⟩ s.state =
        some (s.passed v.id, s.state)) :
    ∃ l', as.foldlM (fun p a => p.loadNext opcode (args a) (descr a)) l.prologue =
        .ok l'.prologue ∧ s.Carries l' ∧ Advances l l' as.length as.length
        (as.map fun a => ⟨opcode, some (descr a), (args a).map (·.eval l.env), none⟩) := by
  induction as generalizing l with
  | nil => exact ⟨l, rfl, h, .refl l⟩
  | cons a as ih =>
    rw [List.length_cons] at hroom hlen
    obtain ⟨v, pending, hpending⟩ : ∃ v pending, l.prologue.pending = v :: pending :=
      List.exists_cons_of_length_pos (by omega)
    obtain ⟨l₁, hload, h₁, hadv⟩ := h.loadNext (by omega) hpending hopcode
      (hargs a (List.mem_cons_self ..)) (hread 0 a v rfl (by rw [hpending]; rfl))
    have heval : ∀ b ∈ as, (args b).map (·.eval l₁.env) = (args b).map (·.eval l.env) :=
      fun b hb => hadv.eval (hargs b (List.mem_cons_of_mem _ hb))
    have hpending₁ : l₁.prologue.pending = pending := by
      rw [hadv.pending, hpending]
      rfl
    obtain ⟨l₂, hloads, h₂, hadv₂⟩ := ih h₁ (by rw [hadv.next]; omega)
      (fun b hb u hu => (hadv.keeps _ (hargs b (List.mem_cons_of_mem _ hb) u hu)).1)
      (by rw [hpending₁]; rw [hpending, List.length_cons] at hlen; omega)
      (fun k b w hb hw => by
        rw [heval b (List.mem_of_getElem? hb)]
        exact hread (k + 1) b w hb (by rw [hpending]; exact hpending₁ ▸ hw))
    refine ⟨l₂, ?_, h₂, ?_⟩
    · rw [List.foldlM_cons, hload]
      exact hloads
    · rw [List.map_congr_left fun b hb => by rw [heval b hb]] at hadv₂
      rw [List.length_cons, Nat.add_comm]
      exact hadv.trans hadv₂

variable {itemArrays : List ArrayDescr} {held : HeldArray}
  {rest : List Value} {address : Value}

private theorem loadArray (arrayLength : Nat → Nat) {field : FieldDescr} {items : ArrayDescr} {n : Nat} (h : s.Carries l)
    (hroom : l.prologue.values.next + (1 + held.items.length) ≤ ValueIds.limit)
    (hobject : object.id ∈ l.visible) (haddress : l.env object.id = address)
    (hitems : itemArrays[n]? = some items) (hlength : held.items.length = arrayLength n)
    (hpending : l.prologue.pending.map (fun v => s.passed v.id) = held.items ++ rest)
    (harray : s.processor (.field address field) s.state = some (held.array, s.state))
    (hread : ∀ (i : Nat) x, held.items[i]? = some x →
      s.processor (.item held.array items i) s.state = some (x, s.state)) :
    ∃ l', l.prologue.loadArray object arrayLength itemArrays (field, n) = .ok l'.prologue ∧
      s.Carries l' ∧ Advances l l' (1 + held.items.length) held.items.length
        (.field address field :: (List.range held.items.length).map (.item held.array items)) := by
  have hlen : held.items.length ≤ l.prologue.pending.length := by
    have hcount := congrArg List.length hpending
    rw [List.length_map, List.length_append] at hcount
    omega
  obtain ⟨v, l₁, hload, h₁, hadv, -, hvisible, hvalue, -⟩ := h.load .getfieldGc [.var object]
    (by omega) (.inl rfl) (fun u hu => by
      rw [List.mem_singleton.mp hu]
      exact hobject) (by
      rw [List.map_singleton, Arg.eval_var, haddress]
      exact harray) .ref
  have hpending₁ : l₁.prologue.pending = l.prologue.pending := hadv.pending
  have hargs (i : Nat) : ([.var v, .int (Int64.ofNat i)] : List Arg).map (·.eval l₁.env) =
      [held.array, .int (Int64.ofNat i)] := by
    rw [← hvalue]
    rfl
  obtain ⟨l₂, hloads, h₂, hadv₂⟩ := h₁.loadAll .getarrayitemGc
    (fun i : Nat => [.var v, .int (Int64.ofNat i)]) (fun _ => .array items)
    (List.range held.items.length) (by rw [hadv.next, List.length_range]; omega) (.inr rfl)
    (fun _ _ u hu => by
      rw [List.mem_singleton.mp hu]
      exact hvisible) (by rw [List.length_range, hpending₁]; exact hlen) (fun k i w hi hw => by
      obtain ⟨hk, rfl⟩ := List.getElem?_eq_some_iff.mp hi
      rw [List.length_range] at hk
      rw [List.getElem_range, hargs]
      refine hread k _ ?_
      -- the item is what was passed in for the next pending input
      have hw' : (l.prologue.pending.map fun v => s.passed v.id)[k]? = some (s.passed w.id) := by
        rw [List.getElem?_map, ← hpending₁, hw]
        rfl
      rwa [hpending, List.getElem?_append_left hk] at hw')
  refine ⟨l₂, ?_, h₂, ?_⟩
  · simp only [Prologue.loadArray, hload, bind, Except.bind, hitems]
    rw [if_neg (by rw [hpending₁, ← hlength]; omega), ← hlength]
    exact hloads
  · simp only [hargs, List.length_range] at hadv₂
    have hboth := hadv.trans hadv₂
    rw [Nat.zero_add, List.map_singleton, Arg.eval_var, haddress] at hboth
    exact hboth

private theorem loadArrays (itemArrays : List ArrayDescr) {arrayLength : Nat → Nat}
    {fields : List FieldDescr} {arrays : List HeldArray} {n : Nat} (h : s.Carries l)
    (hroom : l.prologue.values.next + (fields.length + (arrays.flatMap (·.items)).length) ≤
      ValueIds.limit)
    (hobject : object.id ∈ l.visible) (haddress : l.env object.id = address)
    (hitems : n + fields.length ≤ itemArrays.length)
    (hlength : arrays.map (·.items.length) =
      (List.range' n fields.length).map arrayLength)
    (hpending : l.prologue.pending.map (fun v => s.passed v.id) = arrays.flatMap (·.items))
    (harray : ∀ (k : Nat) field a, fields[k]? = some field → arrays[k]? = some a →
      s.processor (.field address field) s.state = some (a.array, s.state))
    (hread : ∀ (k : Nat) items a (i : Nat) x, itemArrays[n + k]? = some items →
      arrays[k]? = some a → a.items[i]? = some x →
      s.processor (.item a.array items i) s.state = some (x, s.state)) :
    ∃ l', (fields.zipIdx n).foldlM (Prologue.loadArray object arrayLength itemArrays) l.prologue =
        .ok l'.prologue ∧ s.Carries l' ∧
      Advances l l' (fields.length + (arrays.flatMap (·.items)).length)
        (arrays.flatMap (·.items)).length
        (Virtualizable.arrayLoads address fields (itemArrays.drop n) arrays) := by
  induction fields generalizing l arrays n with
  | nil =>
    obtain rfl : arrays = [] := List.map_eq_nil_iff.mp hlength
    exact ⟨l, rfl, h, .refl l⟩
  | cons field fields ih =>
    cases arrays with
    | nil => cases hlength
    | cons held arrays =>
      rw [List.length_cons, List.range'_succ, List.map_cons, List.map_cons] at hlength
      obtain ⟨hlen, hlength⟩ := List.cons.inj hlength
      rw [List.flatMap_cons] at hpending hroom ⊢
      rw [List.length_cons, List.length_append] at hroom
      rw [List.length_cons] at hitems
      have hn : itemArrays[n]? = some itemArrays[n] := List.getElem?_eq_getElem (by omega)
      obtain ⟨l₁, hload, h₁, hadv⟩ := h.loadArray arrayLength (by omega) hobject
        haddress hn hlen hpending (harray 0 field held rfl rfl)
        fun i x hx => hread 0 _ held i x hn rfl hx
      obtain ⟨hobject₁, hsame⟩ := hadv.keeps _ hobject
      obtain ⟨l₂, hloads, h₂, hadv₂⟩ := ih (n := n + 1) h₁ (by rw [hadv.next]; omega) hobject₁
        (hsame.trans haddress) (by omega) hlength (by
          rw [hadv.pending, List.map_drop, hpending, List.drop_left])
        (fun k => harray (k + 1)) fun k items a i x hk ha hx =>
          hread (k + 1) items a i x (by rwa [← Nat.add_assoc, Nat.add_right_comm]) ha hx
      refine ⟨l₂, ?_, h₂, ?_⟩
      · rw [List.zipIdx_cons, List.foldlM_cons, hload]
        exact hloads
      · have hboth := hadv.trans hadv₂
        have hcount : 1 + held.items.length + (fields.length + (arrays.flatMap (·.items)).length) =
            (field :: fields).length + (held.items ++ arrays.flatMap (·.items)).length := by
          rw [List.length_cons, List.length_append]
          omega
        rw [hcount, ← List.length_append] at hboth
        rw [List.drop_eq_getElem_cons (by omega : n < itemArrays.length)]
        exact hboth

private theorem loadStatics {fields : List FieldDescr} {statics : List Value} (h : s.Carries l)
    (hroom : l.prologue.values.next + fields.length ≤ ValueIds.limit)
    (hobject : object.id ∈ l.visible) (haddress : l.env object.id = address)
    (hlength : statics.length = fields.length)
    (hpending : l.prologue.pending.map (fun v => s.passed v.id) = statics ++ rest)
    (hread : ∀ (k : Nat) field x, fields[k]? = some field → statics[k]? = some x →
      s.processor (.field address field) s.state = some (x, s.state)) :
    ∃ l', fields.foldlM (fun p field => p.loadNext .getfieldGc [.var object] (.field field))
        l.prologue = .ok l'.prologue ∧ s.Carries l' ∧
      Advances l l' fields.length fields.length (fields.map (.field address)) := by
  have hargs : ([.var object] : List Arg).map (·.eval l.env) = [address] := by
    rw [← haddress]
    rfl
  have hlen : fields.length ≤ l.prologue.pending.length := by
    have hcount := congrArg List.length hpending
    rw [List.length_map, List.length_append] at hcount
    omega
  obtain ⟨l', hload, h', hadv⟩ := h.loadAll .getfieldGc (fun _ : FieldDescr => [.var object])
    .field fields hroom (.inl rfl)
    (fun _ _ u hu => by
      rw [List.mem_singleton.mp hu]
      exact hobject) hlen (fun k field v hk hv => by
      rw [hargs]
      have hlt : k < statics.length := hlength ▸ (List.getElem?_eq_some_iff.mp hk).1
      have hv' : (l.prologue.pending.map fun v => s.passed v.id)[k]? = some (s.passed v.id) := by
        rw [List.getElem?_map, hv]
        rfl
      rw [hpending, List.getElem?_append_left hlt] at hv'
      exact hread k field _ hk hv')
  simp only [hargs] at hadv
  exact ⟨l', hload, h', hadv⟩

theorem loadFields {fields : Virtualizable} {held : HeldFields} {address : UInt64}
    (h : s.Carries l) (hfits : held.Fits fields address)
    (hholds : s.processor.Holds s.state fields held)
    (hroom : l.prologue.values.next + (fields.staticFields.length + fields.arrayFields.length +
      fields.itemCount address) ≤ ValueIds.limit)
    (hitems : fields.arrayFields.length ≤ fields.itemArrays.length)
    (hobject : object.id ∈ l.visible) (haddress : l.env object.id = held.object)
    (hpending : l.prologue.pending.map (fun v => s.passed v.id) = held.values) :
    ∃ p l', fields.staticFields.foldlM
        (fun p field => p.loadNext .getfieldGc [.var object] (.field field)) l.prologue = .ok p ∧
      fields.arrayFields.zipIdx.foldlM
        (Prologue.loadArray object (fields.arrayLength address) fields.itemArrays) p =
          .ok l'.prologue ∧
      s.Carries l' ∧ l'.prologue.pending = [] ∧ l'.reached = l.reached ++ fields.loads held := by
  have hcount := hfits.length_items
  obtain ⟨l₁, hstatics, h₁, hadv₁⟩ := h.loadStatics (by omega) hobject haddress hfits.statics
    hpending hholds.statics
  obtain ⟨hobject₁, hsame⟩ := hadv₁.keeps _ hobject
  have hpending₁ : l₁.prologue.pending.map (fun v => s.passed v.id) =
      held.arrays.flatMap (·.items) := by
    rw [hadv₁.pending, List.map_drop, hpending, HeldFields.values, ← hfits.statics, List.drop_left]
  have hlengths : held.arrays.map (·.items.length) =
      (List.range' 0 fields.arrayFields.length).map (fields.arrayLength address) := by
    rw [← List.range_eq_range']
    exact hfits.arrays
  obtain ⟨l₂, harrays, h₂, hadv₂⟩ := h₁.loadArrays fields.itemArrays (n := 0)
    (by rw [hadv₁.next]; omega) hobject₁ (hsame.trans haddress) (by omega) hlengths hpending₁
    hholds.arrays (fun k items a i x hk => hholds.items k items a i x (by rwa [Nat.zero_add] at hk))
  refine ⟨_, l₂, hstatics, harrays, h₂, ?_, ?_⟩
  · rw [hadv₂.pending, ← hpending₁, List.length_map, List.drop_length]
  · rw [hadv₂.reached, hadv₁.reached, List.append_assoc]
    rfl

end Carries

end Setting

end Prologue

variable {t t' : Trace} {driver : Driver} {fields : Virtualizable} {address : UInt64}

/--
A recorded trace behind the red arguments and one input for each field of the object at an address,
in which no operation gives a new value to such an input. There are numbers for all loads.
-/
structure Trace.PassesFields (t : Trace) (driver : Driver) (fields : Virtualizable)
    (address : UInt64) : Prop where
  isObject : driver.virtualizableIndex < driver.redArgs
  inputs : t.inputs.length =
    driver.redArgs + (fields.staticFields.length + fields.itemCount address)
  consistent : t.check = .ok ()
  settled : t.forwarding = .empty
  inputs_lt : ∀ v ∈ t.inputs, v.id < t.values.next
  operations_lt : ∀ op ∈ t.operations, (∀ v ∈ op.uses, v.id < t.values.next) ∧
    ∀ r, op.result = some r → r.id < t.values.next
  itemArrays : fields.arrayFields.length ≤ fields.itemArrays.length
  spared : ∀ op ∈ t.operations, ∀ r, op.result = some r →
    r.id ∉ (t.inputs.drop driver.redArgs).map (·.id)
  room : t.values.next + (fields.staticFields.length + fields.arrayFields.length +
    fields.itemCount address) ≤ ValueIds.limit

namespace Trace.PassesFields

theorem fieldsApart (h : t.PassesFields driver fields address) :
    FieldsApart (t.inputs.take driver.redArgs) (t.inputs.drop driver.redArgs) t.operations
      t.values.next := by
  obtain ⟨hnodup, hbranch⟩ := checkCode_eq_ok.mp h.consistent
  refine ⟨?_, ?_, ?_, fun i hi => ?_, fun i hi => ?_⟩
  · rwa [List.take_append_drop]
  · rw [List.take_append_drop]
    exact h.inputs_lt
  · rwa [List.take_append_drop]
  · obtain ⟨op, hop, r, hr, rfl⟩ := exists_of_mem_resultIds hi
    exact (h.operations_lt op hop).2 r hr
  · obtain ⟨op, hop, r, hr, rfl⟩ := exists_of_mem_resultIds hi
    exact h.spared op hop r hr

section Loads

variable {σ : Type} {P : Processor σ} {st : σ} {ρ : Env} {reds : List Value} {held : HeldFields}

/-- The prologue of a trace, in an execution that starts with values for the red arguments. -/
private def setting (h : t.PassesFields driver fields address) (P : Processor σ) (st : σ) (ρ : Env)
    (reds : List Value) (held : HeldFields) : Prologue.Setting σ where
  processor := P
  state := st
  passed := ρ.bind t.inputs (reds ++ held.values)
  start := ρ.bind (t.inputs.take driver.redArgs) reds
  reds := (t.inputs.take driver.redArgs).map (·.id)
  fields := t.inputs.drop driver.redArgs
  next := t.values.next
  fields_lt := h.fieldsApart.fields_lt
  apart := h.fieldsApart.fields_notMem fun _ => Iff.rfl

private theorem redArgs_le (h : t.PassesFields driver fields address) :
    driver.redArgs ≤ t.inputs.length := h.inputs ▸ Nat.le_add_right _ _

private theorem carries_start (h : t.PassesFields driver fields address) (P : Processor σ)
    (st : σ) (ρ : Env) (held : HeldFields) (hreds : reds.length = driver.redArgs) :
    (h.setting P st ρ reds held).Carries {
      prologue := ⟨t.values, .empty, [], t.inputs.drop driver.redArgs⟩
      rename := id
      visible := (t.inputs.take driver.redArgs).map (·.id)
      env := ρ.bind (t.inputs.take driver.redArgs) reds
      reached := [] } := by
  refine ⟨h.fieldsApart.start (fun _ => Iff.rfl) rfl, .nil _, fun i _ hi => ?_⟩
  have hlen : (t.inputs.take driver.redArgs).length = reds.length := by
    rw [List.length_take_of_le h.redArgs_le, hreds]
  have hbind : ρ.bind (t.inputs.take driver.redArgs ++ t.inputs.drop driver.redArgs)
      (reds ++ held.values) i = ρ.bind (t.inputs.take driver.redArgs) reds i :=
    Env.bind_append_of_notMem hlen hi
  rw [List.take_append_drop] at hbind
  exact hbind.symm

private theorem map_passed (h : t.PassesFields driver fields address)
    (hreds : reds.length = driver.redArgs) (hfits : held.Fits fields address) :
    (t.inputs.drop driver.redArgs).map
      (fun v => ρ.bind t.inputs (reds ++ held.values) v.id) = held.values := by
  have hvalues : held.values.length = fields.staticFields.length + fields.itemCount address := by
    rw [HeldFields.values, List.length_append, hfits.statics, hfits.length_items]
  have hlen : t.inputs.length = (reds ++ held.values).length := by
    rw [h.inputs, List.length_append, hreds, hvalues]
  have hall := Env.map_bind (ρ := ρ) (checkCode_eq_ok.mp h.consistent).1 hlen
  rw [List.map_drop, hall, ← hreds, List.drop_left]

private theorem exists_object (h : t.PassesFields driver fields address)
    (hobject : reds[driver.virtualizableIndex]? = some held.object) :
    ∃ object, t.inputs[driver.virtualizableIndex]? = some object ∧
      object.id ∈ (t.inputs.take driver.redArgs).map (·.id) ∧
      ρ.bind (t.inputs.take driver.redArgs) reds object.id = held.object := by
  have hlt : driver.virtualizableIndex < t.inputs.length :=
    Nat.lt_of_lt_of_le h.isObject h.redArgs_le
  have hget : t.inputs[driver.virtualizableIndex]? = some t.inputs[driver.virtualizableIndex] :=
    List.getElem?_eq_getElem hlt
  have htake : (t.inputs.take driver.redArgs)[driver.virtualizableIndex]? =
      some t.inputs[driver.virtualizableIndex] := by
    rw [List.getElem?_take_of_lt h.isObject, hget]
  exact ⟨_, hget, List.mem_map_of_mem (List.mem_of_getElem? htake),
    Env.bind_of_getElem? h.fieldsApart.nodup_reds htake hobject⟩

private theorem exists_prologue (h : t.PassesFields driver fields address)
    (hfields : driver.virtualizable = some fields) (ρ : Env) (hreds : reds.length = driver.redArgs)
    (hobject : reds[driver.virtualizableIndex]? = some held.object)
    (hfits : held.Fits fields address) (hholds : P.Holds st fields held) :
    ∃ t' l, t.loadVirtualizable driver address = .ok t' ∧
      t'.inputs = t.inputs.take driver.redArgs ∧
      t'.operations = (l.prologue.operations ++ t.operations.map l.prologue.forwarding.apply).map
        l.prologue.forwarding.apply ∧ t'.forwarding = .empty ∧
      (h.setting P st ρ reds held).Carries l ∧ l.prologue.pending = [] ∧
      l.reached = fields.loads held := by
  obtain ⟨object, hget, hmem, haddress⟩ := h.exists_object (ρ := ρ) hobject
  obtain ⟨p, l, hstatics, harrays, hl, hpending, hreached⟩ :=
    (h.carries_start P st ρ held hreds).loadFields hfits hholds
      h.room h.itemArrays hmem haddress (h.map_passed (ρ := ρ) hreds hfits)
  have hnotLess : ¬ t.inputs.length < driver.redArgs := Nat.not_lt.mpr h.redArgs_le
  refine ⟨Trace.forgetForwarding { t with
    inputs := t.inputs.take driver.redArgs
    operations := t.operations.foldl (emit · l.prologue.forwarding ·) l.prologue.operations
    values := l.prologue.values
    forwarding := l.prologue.forwarding }, l, ?_, ?_, ?_, ?_, hl, hpending, hreached⟩
  · simp only [Trace.loadVirtualizable, hfields, hget, h.settled, hnotLess, hstatics, harrays,
      hpending, bind, Except.bind, pure, Except.pure, if_false, ne_eq, not_true_eq_false]
  · rw [Trace.inputs_forgetForwarding]
  · rw [Trace.operations_forgetForwarding]
    dsimp only
    rw [foldl_emit]
  · rw [Trace.forwarding_forgetForwarding]

private theorem trail_eq (h : t.PassesFields driver fields address) {l : Prologue.Loading}
    (hl : (h.setting P st ρ reds held).Carries l) (hpending : l.prologue.pending = [])
    (hreached : l.reached = fields.loads held) :
    P.trail ((l.prologue.operations ++ t.operations.map l.prologue.forwarding.apply).map
        l.prologue.forwarding.apply) (ρ.bind (t.inputs.take driver.redArgs) reds) st =
      Prod.map (fields.loads held ++ ·) id
        (P.trail t.operations (ρ.bind t.inputs (reds ++ held.values)) st) := by
  -- the loads read only what keeps its number
  have hreads : P.Reads st (l.prologue.operations.map l.prologue.forwarding.apply)
      (ρ.bind (t.inputs.take driver.redArgs) reds) (fields.loads held) l.env := by
    have hfixed : ∀ op ∈ l.prologue.operations, ∀ v ∈ op.uses, l.rename v.id = v.id :=
      fun op hop v hv => hl.loaded.fixed_of_visible h.fieldsApart.fields_lt
        (h.fieldsApart.fields_notMem fun _ => Iff.rfl) (hl.loaded.uses op hop v hv)
    rw [← hreached]
    exact hl.reads.map_apply hl.loaded.renames hfixed
  -- behind them all variables have the values that were passed in, under their new names
  have hbody : P.trail (t.operations.map l.prologue.forwarding.apply) l.env st =
      P.trail t.operations (ρ.bind t.inputs (reds ++ held.values)) st :=
    Processor.trail_map_apply hl.loaded.renames (· < t.values.next)
      (fun op hop => (h.operations_lt op hop).1)
      (fun op hop => h.fieldsApart.sparesResult hl.loaded hpending hop)
      (fun i hi => hl.means i hi (by rw [hpending]; exact List.not_mem_nil)) st
  have htwice : (t.operations.map l.prologue.forwarding.apply).map l.prologue.forwarding.apply =
      t.operations.map l.prologue.forwarding.apply := by
    rw [List.map_map]
    exact List.map_congr_left fun op _ => hl.loaded.grounded.apply_apply op
  rw [List.map_append, htwice, hreads.trail_append, hbody]
  rfl

private theorem exists_trail (h : t.PassesFields driver fields address)
    (hfields : driver.virtualizable = some fields) (ρ : Env) (hreds : reds.length = driver.redArgs)
    (hobject : reds[driver.virtualizableIndex]? = some held.object)
    (hfits : held.Fits fields address) (hholds : P.Holds st fields held) :
    ∃ t', t.loadVirtualizable driver address = .ok t' ∧
      t'.inputs = t.inputs.take driver.redArgs ∧ t'.check = .ok () ∧ t'.forwarding = .empty ∧
      P.trail t'.operations (ρ.bind t'.inputs reds) st = Prod.map (fields.loads held ++ ·) id
        (P.trail t.operations (ρ.bind t.inputs (reds ++ held.values)) st) := by
  obtain ⟨t', l, hload, hinputs, hops, hforwarding, hl, hpending, hreached⟩ :=
    h.exists_prologue hfields ρ hreds hobject hfits hholds
  refine ⟨t', hload, hinputs, ?_, hforwarding, ?_⟩
  · rw [Trace.check, checkCode_eq_ok, hinputs, hops]
    exact ⟨h.fieldsApart.nodup_reds,
      h.fieldsApart.check_loaded (fun _ => Iff.rfl) hl.loaded hpending⟩
  · rw [hinputs, hops]
    exact h.trail_eq hl hpending hreached

end Loads

end Trace.PassesFields

/-- Fields that hold nothing, to be loaded by a processor that gives nothing. -/
private def HeldFields.blank (fields : Virtualizable) (address : UInt64) : HeldFields where
  object := .void
  statics := List.replicate fields.staticFields.length .void
  arrays := (List.range fields.arrayFields.length).map fun k =>
    ⟨.void, List.replicate (fields.arrayLength address k) .void⟩

private theorem HeldFields.fits_blank (fields : Virtualizable) (address : UInt64) :
    (HeldFields.blank fields address).Fits fields address := by
  constructor <;> simp [HeldFields.blank, Function.comp_def]

private theorem HeldFields.holds_blank (fields : Virtualizable) (address : UInt64) :
    Processor.Holds (fun _ _ => some (.void, ())) () fields (HeldFields.blank fields address) := by
  constructor
  · intro k field x _ hx
    rw [(List.mem_replicate.mp (List.mem_of_getElem? hx)).2]
  · intro k field a _ ha
    obtain ⟨k, -, rfl⟩ := List.mem_map.mp (List.mem_of_getElem? ha)
    rfl
  · intro k items a i x _ ha hx
    obtain ⟨k, -, rfl⟩ := List.mem_map.mp (List.mem_of_getElem? ha)
    rw [(List.mem_replicate.mp (List.mem_of_getElem? hx)).2]

/--
The prologue succeeds. The trace with it takes the red arguments, is consistent and has no
replacements left. Over an object that holds the fields it reads each of them once, and goes on to
reach what the recorded trace reaches with their values passed in, whatever the operations do.
-/
theorem Trace.loadVirtualizable_trail (hfields : driver.virtualizable = some fields)
    (h : t.PassesFields driver fields address) :
    ∃ t', t.loadVirtualizable driver address = .ok t' ∧
      t'.inputs = t.inputs.take driver.redArgs ∧ t'.check = .ok () ∧ t'.forwarding = .empty ∧
      ∀ (σ : Type) (P : Processor σ) (st : σ) (ρ : Env) (reds : List Value) (held : HeldFields),
        reds.length = driver.redArgs → reds[driver.virtualizableIndex]? = some held.object →
        held.Fits fields address → P.Holds st fields held →
        P.trail t'.operations (ρ.bind t'.inputs reds) st = Prod.map (fields.loads held ++ ·) id
          (P.trail t.operations (ρ.bind t.inputs (reds ++ held.values)) st) := by
  -- whether the prologue succeeds does not depend on what the object holds
  have hobject : (List.replicate driver.redArgs Value.void)[driver.virtualizableIndex]? =
      some (HeldFields.blank fields address).object := by
    rw [List.getElem?_replicate, if_pos h.isObject]
    rfl
  obtain ⟨t', hload, hinputs, hcheck, hforwarding, -⟩ := h.exists_trail hfields (fun _ => .void)
    List.length_replicate hobject (HeldFields.fits_blank fields address)
    (HeldFields.holds_blank fields address)
  refine ⟨t', hload, hinputs, hcheck, hforwarding, fun σ P st ρ reds held hreds hobject hfits hholds =>
    ?_⟩
  obtain ⟨t'', hload', -, -, -, htrail⟩ := h.exists_trail hfields ρ hreds hobject hfits hholds
  cases hload.symm.trans hload'
  exact htrail

section Frames

/-- A frame with a program counter and two locals. -/
def frameFields : Virtualizable where
  staticFields := [⟨"pc", .int, 8⟩]
  arrayFields := [⟨"locals", .ref, 16⟩]
  itemArrays := [⟨.int⟩]
  arrayLength := fixedLengths [2]

def frameDriver : Driver where
  id := 0
  name := "frames"
  redArgs := 1
  resultKind := .void
  virtualizable := some frameFields

/-- The locals are added, and the sum takes the place of the first. -/
def summing : Trace where
  name := "summing"
  inputs := [⟨0, .ref⟩, ⟨1, .int⟩, ⟨2, .int⟩, ⟨3, .int⟩]
  operations := [
    .label [⟨0, .ref⟩, ⟨1, .int⟩, ⟨2, .int⟩, ⟨3, .int⟩] (.cell ⟨0, 0⟩),
    { opcode := .intAdd, args := [.var ⟨2, .int⟩, .var ⟨3, .int⟩], result := some ⟨4, .int⟩ },
    { opcode := .guardTrue, args := [.var ⟨4, .int⟩],
      failArgs := some [some ⟨0, .ref⟩, some ⟨1, .int⟩] },
    .jump [.var ⟨0, .ref⟩, .var ⟨1, .int⟩, .var ⟨4, .int⟩, .var ⟨3, .int⟩] (.cell ⟨0, 0⟩)]
  values := ⟨5⟩

def heldFrame : HeldFields where
  object := .ref 0x100
  statics := [.int 7]
  arrays := [⟨.ref 0x200, [.int 20, .int 22]⟩]

/-- Reads the frame, adds, and goes on behind the guard. -/
def frameProcessor : Processor Unit := fun r _ =>
  match r.op, r.descr, r.args with
  | .getfieldGc, some (.field f), _ =>
    some (if f.offset = 8 then .int 7 else .ref 0x200, ())
  | .getarrayitemGc, _, [_, .int i] => some (if i = 0 then .int 20 else .int 22, ())
  | .intAdd, _, [.int a, .int b] => some (.int (a + b), ())
  | _, _, _ => some (.void, ())

private theorem passesFields_summing : summing.PassesFields frameDriver frameFields 0x100 where
  isObject := by decide
  inputs := by decide
  consistent := by decide +kernel
  settled := rfl
  inputs_lt := by decide
  operations_lt := by decide
  itemArrays := by decide
  spared := by decide
  room := by decide

private theorem fits_heldFrame : heldFrame.Fits frameFields 0x100 := ⟨rfl, rfl⟩

private theorem holds_heldFrame : frameProcessor.Holds () frameFields heldFrame := by
  constructor
  · rintro (_ | k) field x hfield hx
    · cases hfield
      cases hx
      rfl
    · cases hfield
  · rintro (_ | k) field a hfield ha
    · cases hfield
      cases ha
      rfl
    · cases hfield
  · rintro (_ | k) items a (_ | _ | i) x hitems ha hx
    · cases ha
      cases hx
      rfl
    · cases ha
      cases hx
      rfl
    · cases ha
      cases hx
    all_goals cases hitems

/-- The loop reads 7, 20 and 22 off the frame, and reaches what it reaches if they are passed in. -/
theorem Trace.loadVirtualizable_trail_summing :
    frameDriver.virtualizable = some frameFields ∧
      summing.PassesFields frameDriver frameFields 0x100 ∧ heldFrame.Fits frameFields 0x100 ∧
      frameProcessor.Holds () frameFields heldFrame ∧
      ∃ t', summing.loadVirtualizable frameDriver 0x100 = .ok t' ∧ t'.inputs = [⟨0, .ref⟩] ∧
        t'.check = .ok () ∧ t'.forwarding = .empty ∧
        (frameProcessor.trail t'.operations (Env.bind (fun _ => .void) t'.inputs [.ref 0x100]) ()).1 =
          [.field (.ref 0x100) ⟨"pc", .int, 8⟩, .field (.ref 0x100) ⟨"locals", .ref, 16⟩,
            .item (.ref 0x200) ⟨.int⟩ 0, .item (.ref 0x200) ⟨.int⟩ 1,
            { op := .label, descr := some (.cell ⟨0, 0⟩),
              args := [.ref 0x100, .int 7, .int 20, .int 22] },
            { op := .intAdd, args := [.int 20, .int 22] },
            { op := .guardTrue, args := [.int 42], exit := some [some (.ref 0x100), some (.int 7)] },
            { op := .jump, descr := some (.cell ⟨0, 0⟩),
              args := [.ref 0x100, .int 7, .int 42, .int 22] }] := by
  refine ⟨rfl, passesFields_summing, fits_heldFrame, holds_heldFrame, ?_⟩
  obtain ⟨t', hload, hinputs, hcheck, hforwarding, htrail⟩ :=
    Trace.loadVirtualizable_trail (show frameDriver.virtualizable = some frameFields from rfl)
      passesFields_summing
  refine ⟨t', hload, hinputs, hcheck, hforwarding, ?_⟩
  rw [htrail Unit frameProcessor () (fun _ => .void) [.ref 0x100] heldFrame rfl rfl fits_heldFrame
    holds_heldFrame]
  decide +kernel

/--
Behind a label the number of a field is free again. A trace that gives it to a sum is consistent, but
the prologue makes the jump read what has been loaded, which the label has hidden. It fails where an
array field has no descriptor for its items, and where there is no number left for a load.
-/
theorem Trace.loadVirtualizable_hides_redefined :
    let redefining : Trace :=
      { name := "redefining", inputs := [⟨0, .ref⟩, ⟨1, .int⟩], values := ⟨2⟩
        operations := [.label [⟨0, .ref⟩] (.cell ⟨0, 0⟩),
          { opcode := .intAdd, args := [.int 1, .int 1], result := some ⟨1, .int⟩ },
          .jump [.var ⟨1, .int⟩] (.cell ⟨0, 0⟩)] }
    let finishing : Trace :=
      { name := "finishing", inputs := [⟨0, .ref⟩], values := ⟨1⟩
        operations := [{ opcode := .finish }] }
    let pcOnly : Virtualizable := ⟨[⟨"pc", .int, 8⟩], [], [], fixedLengths []⟩
    let untyped : Virtualizable := ⟨[], [⟨"locals", .ref, 16⟩], [], fixedLengths [0]⟩
    let driver (fields : Virtualizable) : Driver := { frameDriver with virtualizable := some fields }
    (redefining.check = .ok () ∧ redefining.forwarding.isEmpty = true ∧
      (∀ v ∈ redefining.inputs, v.id < redefining.values.next) ∧
      redefining.inputs.length = 1 + (pcOnly.staticFields.length + pcOnly.itemCount 0) ∧
      (redefining.loadVirtualizable (driver pcOnly) 0).toOption.map (·.check) =
        some (.error (.undefinedValue .jump ⟨2, .int⟩))) ∧
    (finishing.check = .ok () ∧
      finishing.inputs.length = 1 + (untyped.staticFields.length + untyped.itemCount 0) ∧
      (finishing.loadVirtualizable (driver untyped) 0).toOption.map (·.check) = none) ∧
    (redefining.loadVirtualizable (driver pcOnly) 0).isOk = true ∧
      ({ redefining with values := ⟨ValueIds.limit⟩ }.loadVirtualizable (driver pcOnly) 0).isOk =
        false := by
  decide +kernel

end Frames

end HotLoop
