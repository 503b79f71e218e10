import HotLoop.Optimize.Request
import HotLoop.Proofs.Computation
import Mathlib.Data.List.Forall2

/-!
# Remembered pure calls

The results of pure calls are remembered under the words of their arguments. The word tells the
constants of one kind apart, but not those of different kinds: the integer 8, the address 8 and the
float with the bits of 8 have one word. A call on constants is given what was last observed for
exactly these constants as long as no later call has had the same words with other kinds.
-/

namespace HotLoop

/-- The same constants, one after another. -/
def SameConstants (as bs : List Value) : Prop :=
  List.Forall₂ (fun a b => a.sameConstant b = true) as bs

theorem sameConstants_iff {as bs : List Value} : SameConstants as bs ↔ as = bs := by
  simp [SameConstants, Value.sameConstant, List.forall₂_eq_eq_eq]

instance (as bs : List Value) : Decidable (SameConstants as bs) :=
  decidable_of_iff' _ sameConstants_iff

theorem Value.eq_of_word_eq {a b : Value} (hword : a.word = b.word) (hkind : a.kind = b.kind) :
    a = b := by
  cases a <;> cases b <;> cases hkind
  case int.int n m => exact congrArg (fun w => Value.int (.ofUInt64 w)) hword
  case ref.ref => exact congrArg Value.ref hword
  case float.float => exact congrArg Value.float hword
  case void.void => rfl

theorem PureKey.ofValues_eq_iff {as bs : List Value} :
    PureKey.ofValues as = .ofValues bs ∧ as.map Value.kind = bs.map Value.kind ↔
      SameConstants as bs := by
  rw [sameConstants_iff]
  refine ⟨?_, fun h => h ▸ ⟨rfl, rfl⟩⟩
  rintro ⟨hkey, hkinds⟩
  replace hkey : as.map Value.word = bs.map Value.word := PureKey.mk.inj hkey
  induction as generalizing bs with
  | nil => simpa [eq_comm] using hkey
  | cons a as ih =>
    cases bs with
    | nil => cases hkey
    | cons b bs =>
      obtain ⟨hword, hwords⟩ := List.cons.inj hkey
      obtain ⟨hkind, hkinds⟩ := List.cons.inj hkinds
      rw [Value.eq_of_word_eq hword hkind, ih hkinds hwords]

/-- A pure call as it is observed while tracing. -/
structure PureCall where
  args : List Value
  result : Value
  deriving DecidableEq, Repr

/-- What is remembered after some calls. -/
def PureMemo.ofCalls (calls : List PureCall) : PureMemo :=
  .ofList (calls.map fun call => (.ofValues call.args, call.result))

/-- The result that was last observed for exactly the given constants. -/
def lastResult? (calls : List PureCall) (args : List Value) : Option Value :=
  (calls.reverse.find? (SameConstants ·.args args)).map (·.result)

/-- The last call whose arguments have the words of the given constants. -/
def lastAlike? (calls : List PureCall) (args : List Value) : Option PureCall :=
  calls.reverse.find? (PureKey.ofValues ·.args = .ofValues args)

namespace PureMemo

theorem constArgs?_map_const (args : List Value) : constArgs? (args.map .const) = some args := by
  induction args with
  | nil => rfl
  | cons a args ih =>
    rw [constArgs?] at ih ⊢
    rw [List.map_cons, List.mapM_cons, ih]
    rfl

theorem lookup?_ofCalls (calls : List PureCall) (args : List Value) :
    (ofCalls calls).lookup? (args.map .const) = (lastAlike? calls args).map (·.result) := by
  rw [lookup?, constArgs?_map_const, Option.bind_some, ofCalls, Table.get?_ofList,
    ← List.map_reverse, List.find?_map, Option.map_map]
  rfl

theorem lastResult?_of_lastAlike? {calls : List PureCall} {args : List Value} {call : PureCall}
    (hcall : lastAlike? calls args = some call)
    (hkinds : call.args.map Value.kind = args.map Value.kind) :
    lastResult? calls args = some call.result := by
  obtain ⟨hkey, behind, front, hsplit, hbehind⟩ := List.find?_eq_some_iff_append.mp hcall
  have hexact : calls.reverse.find? (SameConstants ·.args args) = some call := by
    refine List.find?_eq_some_iff_append.mpr ⟨?_, behind, front, hsplit, fun other hother => ?_⟩
    · exact decide_eq_true (PureKey.ofValues_eq_iff.mp ⟨of_decide_eq_true hkey, hkinds⟩)
    · have hother := hbehind other hother
      simp only [Bool.not_eq_eq_eq_not, Bool.not_true, decide_eq_false_iff_not] at hother ⊢
      exact fun hsame => hother (PureKey.ofValues_eq_iff.mpr hsame).1
  rw [lastResult?, hexact]
  rfl

theorem lastResult?_eq_none {calls : List PureCall} {args : List Value}
    (hnone : lastAlike? calls args = none) : lastResult? calls args = none := by
  rw [lastResult?, Option.map_eq_none_iff, List.find?_eq_none]
  intro call hcall hsame
  have halike := List.find?_eq_none.mp hnone call hcall
  exact halike (decide_eq_true (PureKey.ofValues_eq_iff.mpr (of_decide_eq_true hsame)).1)

/--
Calls on different constants of the same kinds are never mixed up: keys and kinds together say which
constants they are, and what is remembered for constants is the result that was last observed for
exactly these, unless the last call with their words was on constants of other kinds, and had
another result.
-/
theorem lookup_lastResult (calls : List PureCall) (args : List Value) :
    (∀ bs, PureKey.ofValues args = .ofValues bs ∧ args.map Value.kind = bs.map Value.kind ↔
      SameConstants args bs) ∧
    ((ofCalls calls).lookup? (args.map .const) = lastResult? calls args ↔
      ∀ call, lastAlike? calls args = some call → call.args.map Value.kind = args.map Value.kind ∨
        lastResult? calls args = some call.result) := by
  refine ⟨fun _ => PureKey.ofValues_eq_iff, ?_⟩
  rw [lookup?_ofCalls]
  cases hlast : lastAlike? calls args with
  | none => simp [lastResult?_eq_none hlast]
  | some call =>
    constructor
    · rintro h call ⟨⟩
      exact .inr h.symm
    · intro h
      rcases h call rfl with hkinds | hresult
      · exact (lastResult?_of_lastAlike? hlast hkinds).symm
      · exact hresult.symm

/--
A call on the integer 0 has been observed. The same function on the null reference has the same key,
is given the result of that call, and vanishes from the trace.
-/
theorem lookup_mixes_kinds :
    let call : PureCall := ⟨[.int 8, .int 0], .int 42⟩
    let args : List Value := [.int 8, .null]
    let r : Var := ⟨0, .int⟩
    let ops : List Operation := [
      { opcode := .callPure, args := args.map .const, result := some r },
      { opcode := .finish, args := [.var r], descr := some (.final .doneInt) }]
    let memo := ofCalls [call]
    (PureKey.ofValues call.args = .ofValues args ∧ ¬ SameConstants call.args args) ∧
      (memo.lookup? (args.map .const) = some (.int 42) ∧ lastResult? [call] args = none) ∧
      (runFrom (Pass.simple { driver := 0, opts := .all, memo } [] ops)
        (.ofShared { counter := .ofBits 4 })).1.toOption.map (·.operations) =
        some [{ opcode := .finish, args := [.int 42], descr := some (.final .doneInt) }] := by
  decide

end PureMemo

end HotLoop
