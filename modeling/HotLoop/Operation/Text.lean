import HotLoop.Operation.Basic
import HotLoop.Decimal.Layout

/-!
# The printed form of operations

`i2 = int_add(i0, 1)` and `guard_true(i2, descr=<Guard guard_true>) [i0, None]`: the result, the
name, the arguments, the descriptor, and in brackets the fail arguments if there is a list of them.
-/

namespace HotLoop

/-- Lower-case hexadecimal with its mark, as in `0x1f`. -/
def hexText (n : UInt64) : String := "0x" ++ String.ofList (Nat.toDigits 16 n.toNat)

def Value.floatStyle : FloatStyle where
  leastPositional := -4
  greatestPositional := 15
  exponentMark := 'e'
  nan := "NaN"
  infinity := "inf"

def Var.text (v : Var) : String := v.kind.letter.toString ++ toString v.id

def Value.text : Value → String
  | int n => toString n.toInt
  | float b => floatStyle.write b
  | ref a => if a = 0 then "NULL" else "@" ++ hexText a
  | void => "void"

def Arg.text : Arg → String
  | var v => v.text
  | const c => c.text

def Descr.text : Descr → String
  | cell u => s!"<Loop{u.index}>"
  | target e => s!"<Target of Loop{e.owner.index}>"
  | guard g => s!"<Guard {g.opcode.name}>"
  | final d => s!"<{d.name}>"
  | field d => s!"<Field {d.name}>"
  | array d => s!"<Array {d.itemKind.title}>"
  | size d => s!"<Size {d.typeId}>"
  | call d => s!"<Call {d.result.title}>"
  | quasiImmut f => s!"<QuasiImmut {f}>"

def slotText : Option Var → String
  | some v => v.text
  | none => "None"

namespace Operation

def text (op : Operation) : String :=
  let result := match op.result with
    | some v => v.text ++ " = "
    | none => ""
  let descr := match op.descr with
    | some d => ["descr=" ++ d.text]
    | none => []
  let fail := match op.failArgs with
    | some slots => " [" ++ ", ".intercalate (slots.map slotText) ++ "]"
    | none => ""
  result ++ op.opcode.name ++ "(" ++ ", ".intercalate (op.args.map Arg.text ++ descr) ++ ")" ++ fail

end Operation

/-- The inputs in brackets, then one operation a line. -/
def codeLines (inputs : List Var) (ops : List Operation) : List String :=
  ("[" ++ ", ".intercalate (inputs.map Var.text) ++ "]") :: ops.map Operation.text

def unlines (lines : List String) : String := String.join (lines.map (· ++ "\n"))

end HotLoop
