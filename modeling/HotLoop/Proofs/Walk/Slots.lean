import HotLoop.Optimize.Pass
import Mathlib.Data.List.Forall2

/-!
# The slots of a guard

What the numbering of a guard says about its slots: a variable of the frame, a constant of the
resume data, or nothing. Numbering the recorded slots loses none of them.
-/

namespace HotLoop

namespace NumberedSlots

def look (n : NumberedSlots) : Tagged → Option Arg
  | .box i => (n.boxes[i]?).join.map .var
  | .const i => n.consts[i]?.map .const
  | _ => none

/-- What the slots stand for, one after another. -/
def read (n : NumberedSlots) : List (Option Arg) := n.numbering.map n.look

/-- The entry points at something that is there, or says that there is nothing. -/
inductive Names (n : NumberedSlots) : Tagged → Option Arg → Prop where
  | null : Names n .null none
  | box {i : Nat} {v : Var} (h : n.boxes[i]? = some (some v)) : Names n (.box i) (some (.var v))
  | const {i : Nat} {c : Value} (h : n.consts[i]? = some c) : Names n (.const i) (some (.const c))

theorem Names.look_eq {n : NumberedSlots} {tag : Tagged} {a : Option Arg} (h : n.Names tag a) :
    n.look tag = a := by
  cases h with
  | null => rfl
  | box h => rw [look, h]; rfl
  | const h => rw [look, h]; rfl

private theorem Names.append {n : NumberedSlots} {tag : Tagged} {a : Option Arg}
    (h : n.Names tag a) (numbering : List Tagged) (consts : List Value)
    (boxes : List (Option Var)) :
    Names ⟨numbering, n.consts ++ consts, n.boxes ++ boxes⟩ tag a := by
  cases h with
  | null => exact .null
  | box h => exact .box (List.getElem?_append_left (List.getElem?_eq_some_iff.mp h).1 ▸ h)
  | const h => exact .const (List.getElem?_append_left (List.getElem?_eq_some_iff.mp h).1 ▸ h)

/-- What a recorded slot means under a forwarding table. -/
def meaning (t : Forwarding) (slot : Option Var) : Option Arg := slot.map fun v => t.resolve (.var v)

private theorem boxes_push (t : Forwarding) (n : NumberedSlots) (slot : Option Var) :
    (n.push t slot).boxes = n.boxes ++ [(meaning t slot).bind Arg.var?] := by
  unfold push
  rw [show slot.map (fun v => t.resolve (.var v)) = meaning t slot from rfl]
  split <;> rename_i hslot <;> rw [hslot] <;> rfl

private theorem names_push (t : Forwarding) {n : NumberedSlots} (slot : Option Var)
    {as : List (Option Arg)} (h : List.Forall₂ n.Names n.numbering as) :
    List.Forall₂ (n.push t slot).Names (n.push t slot).numbering (as ++ [meaning t slot]) := by
  have hone (tag : Tagged) (consts : List Value) (boxes : List (Option Var)) (a : Option Arg)
      (hlast : Names ⟨n.numbering ++ [tag], n.consts ++ consts, n.boxes ++ boxes⟩ tag a) :
      List.Forall₂ (Names ⟨n.numbering ++ [tag], n.consts ++ consts, n.boxes ++ boxes⟩)
        (n.numbering ++ [tag]) (as ++ [a]) :=
    List.rel_append (h.imp fun _ _ htag => htag.append _ _ _) (.cons hlast .nil)
  unfold push
  rw [show slot.map (fun v => t.resolve (.var v)) = meaning t slot from rfl]
  split
  · rename_i hslot
    have hnull := hone .null [] [none] none .null
    rw [hslot]
    rwa [List.append_nil] at hnull
  · rename_i v hslot
    have hbox := hone (.box n.boxes.length) [] [some v] (some (.var v)) (.box (by simp))
    rw [hslot]
    rwa [List.append_nil] at hbox
  · rename_i c hslot
    rw [hslot]
    exact hone (.const n.consts.length) [c] [none] (some (.const c)) (.const (by simp))

private theorem foldl_push_spec (t : Forwarding) (slots : List (Option Var)) {n : NumberedSlots}
    {as : List (Option Arg)} (h : List.Forall₂ n.Names n.numbering as) :
    List.Forall₂ (slots.foldl (push t) n).Names (slots.foldl (push t) n).numbering
        (as ++ slots.map (meaning t)) ∧
      (slots.foldl (push t) n).boxes = n.boxes ++ slots.map fun s => (meaning t s).bind Arg.var? := by
  induction slots generalizing n as with
  | nil => simpa using h
  | cons slot slots ih =>
    obtain ⟨hnames, hboxes⟩ := ih (names_push t slot h)
    rw [List.foldl_cons]
    refine ⟨?_, ?_⟩
    · rw [List.append_assoc] at hnames
      exact hnames
    · rw [hboxes, boxes_push, List.append_assoc]
      rfl

/-- What is kept in the frame are the variables that the recorded slots mean. -/
theorem boxes_ofSlots (t : Forwarding) (slots : List (Option Var)) :
    (ofSlots t slots).boxes = slots.map fun slot => (meaning t slot).bind Arg.var? :=
  (foldl_push_spec t slots (n := {}) .nil).2

/-- Entry by entry the numbering names what the recorded slots mean. -/
theorem names_ofSlots (t : Forwarding) (slots : List (Option Var)) :
    List.Forall₂ (ofSlots t slots).Names (ofSlots t slots).numbering (slots.map (meaning t)) :=
  (foldl_push_spec t slots (n := {}) .nil).1

theorem length_ofSlots (t : Forwarding) (slots : List (Option Var)) :
    (ofSlots t slots).numbering.length = (ofSlots t slots).boxes.length := by
  rw [(names_ofSlots t slots).length_eq, boxes_ofSlots, List.length_map, List.length_map]

/-- The numbered slots stand for what the recorded ones mean. -/
theorem read_ofSlots (t : Forwarding) (slots : List (Option Var)) :
    (ofSlots t slots).read = slots.map (meaning t) := by
  have hlook := (names_ofSlots t slots).imp fun _ _ h => Names.look_eq h
  exact List.forall₂_eq_eq_eq ▸ List.forall₂_map_left_iff.mpr hlook

end NumberedSlots

end HotLoop
