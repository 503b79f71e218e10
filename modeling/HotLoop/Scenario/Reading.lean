import HotLoop.Json.Printer
import HotLoop.Json.Reader
import HotLoop.Compile.Bridge
import HotLoop.Replay.File
import HotLoop.Scenario.World

/-!
# Reading scripts

How the parts of a script are taken from JSON: values, operations, descriptors, resume data and
drivers. Lists may be missing where they are empty.
-/

namespace HotLoop.Scenario

/-- A member of an object; the last one of a repeated name. -/
def field? (j : Json) (name : String) : Option Json :=
  match j with
  | .object ms => (ms.reverse.find? (·.1 == name)).map (·.2)
  | _ => none

def present? (j : Json) (name : String) : Option Json :=
  match field? j name with
  | some .null => none
  | other => other

def field (j : Json) (name : String) : Step Json := need name (field? j name)

def items (j : Json) (name : String) : Step (List Json) :=
  match present? j name with
  | some (.array xs) => return xs
  | none => return []
  | _ => refuse name

def readArray (j : Json) : Step (List Json) :=
  match j with
  | .array xs => return xs
  | _ => refuse "array"

def readInt (j : Json) : Step Int :=
  match j with
  | .int n => return n
  | _ => refuse "integer"

def readNat (j : Json) : Step Nat := do
  let n ← readInt j
  if n < 0 then refuse "natural" else return n.toNat

def readString (j : Json) : Step String :=
  match j with
  | .string s => return s
  | _ => refuse "string"

def natOr (j : Json) (name : String) (default : Nat) : Step Nat :=
  match present? j name with
  | some v => readNat v
  | none => return default

def boolOr (j : Json) (name : String) (default : Bool) : Step Bool :=
  match present? j name with
  | some (.bool b) => return b
  | none => return default
  | _ => refuse name

def stringOr (j : Json) (name : String) (default : String) : Step String :=
  match present? j name with
  | some v => readString v
  | none => return default

def natAt (j : Json) (name : String) : Step Nat := do readNat (← field j name)

def stringAt (j : Json) (name : String) : Step String := do readString (← field j name)

def readPair (j : Json) : Step (Json × Json) := do
  match ← readArray j with
  | [a, b] => return (a, b)
  | _ => refuse "pair"

def readKind (j : Json) : Step Kind := do need "type" (Kind.ofName? (← readString j))

def readKinds (j : Json) : Step (List Kind) := do (← readArray j).mapM readKind

def readVar (j : Json) : Step Var := do
  match (← readString j).toList with
  | c :: digits =>
    let kind ← need "variable" (Kind.ofLetter? c)
    let id ← need "variable" (String.ofList digits).toNat?
    return ⟨id, kind⟩
  | [] => refuse "variable"

def readOptVar (j : Json) : Step (Option Var) :=
  match j with
  | .null => return none
  | j => do return some (← readVar j)

def readFloatBits (j : Json) : Step UInt64 :=
  match j with
  | .float bits => return bits
  | .int n =>
    let bits := Binary64.ofNat n.natAbs
    return if n < 0 then Binary64.neg bits else bits
  | _ => refuse "float"

def readValue (j : Json) : Step Value := do
  match j with
  | .int n => return .int (Int64.ofInt n)
  | .object _ =>
    if let some a := field? j "ref" then return .ref (UInt64.ofNat (← readNat a))
    if let some x := field? j "float" then return .float (← readFloatBits x)
    if let some b := field? j "bits" then return .float (UInt64.ofNat (← readNat b))
    return .void
  | _ => refuse "value"

def readValues (j : Json) (name : String) : Step (List Value) := do
  (← items j name).mapM readValue

def readArg (j : Json) : Step Arg :=
  match j with
  | .string _ => do return .var (← readVar j)
  | j => do return .const (← readValue j)

def readArgs (j : Json) (name : String) : Step (List Arg) := do (← items j name).mapM readArg

def readVars (j : Json) (name : String) : Step (List Var) := do (← items j name).mapM readVar

def readOpCode (j : Json) : Step OpCode := do
  need "opcode" (OpCode.ofKeyword? (← readString j))

def readField (j : Json) : Step FieldDescr := do
  match ← readArray j with
  | [name, kind, offset] => return ⟨← readString name, ← readKind kind, ← readNat offset⟩
  | _ => refuse "field"

def readSize (j : Json) : Step SizeDescr := do
  match ← readArray j with
  | [typeId, size] => return ⟨← readNat typeId, ← readNat size⟩
  | _ => refuse "size"

def readFinal (j : Json) : Step FinalDescr := do need "final" (FinalDescr.ofName? (← readString j))

def readTagged (j : Json) : Step Tagged := do
  match j with
  | .null => return .null
  | .array [tag, n] =>
    match ← readString tag with
    | "box" => return .box (← readNat n)
    | "const" => return .const (← readNat n)
    | "int" => return .int (Int32.ofInt (← readInt n))
    | "virtual" => return .virtual (← readNat n)
    | _ => refuse "tagged"
  | _ => refuse "tagged"

def readTaggeds (j : Json) (name : String) : Step (List Tagged) := do
  (← items j name).mapM readTagged

def readVirtual (j : Json) : Step VirtualInfo := do
  match field? j "struct" with
  | some size =>
    let fields ← (← items j "fields").mapM fun f => do
      match ← readArray f with
      | [field, tagged] => return (← readField field, ← readTagged tagged)
      | _ => refuse "virtual"
    return .struct (← readSize size) fields
  | none => return .array ⟨← readKind (← field j "array")⟩ (← readTaggeds j "items")

def readPending (j : Json) : Step PendingWrite := do
  let index? ← match present? j "index" with
    | some n => pure (some (← readNat n))
    | none => pure none
  return {
    target := ← readTagged (← field j "target")
    field := ← readField (← field j "field")
    index?
    value := ← readTagged (← field j "value") }

def readResumeData (j : Json) : Step ResumeData := do
  return {
    numbering := ← readTaggeds j "numb"
    consts := ← readValues j "consts"
    virtuals := ← (← items j "virtuals").mapM readVirtual
    pending := ← (← items j "pending").mapM readPending
    count := ← natOr j "count" 0
    position := ← natOr j "position" 0 }

def readUnit (j : Json) : Step UnitHandle := do unitOf (← readInt j)

def unitAt (j : Json) (name : String) : Step UnitHandle := do
  match present? j name with
  | some n => readUnit n
  | none => return .dangling

def guardAt (j : Json) (name : String) : Step Guard := do
  need "guard" (← get).guards[← natAt j name]?

def readDescr (j : Json) : Step Descr := do
  let .object ((key, v) :: _) := j | refuse "descr"
  match key with
  | "cell" => return .cell (← readUnit v)
  | "target" => do
    let (unit, kinds) ← readPair v
    return .target (← makeEntry (← readUnit unit) (← readKinds kinds) none)
  | "target_original" => do
    let (unit, kinds) ← readPair v
    let unit ← readUnit unit
    return .target (← makeEntry unit (← readKinds kinds) (some unit))
  | "target_of" => do
    let (unit, k) ← readPair v
    let entries := (((← context).registry.get? (← readUnit unit)).map (·.entries)).getD []
    return .target (← need "entry point" entries[← readNat k]?)
  | "guard" =>
    match v with
    | .int n => return .guard (← need "guard" (← get).guards[n.toNat]?)
    | v => return .guard (← inventGuard 0 (← readOpCode (← field v "op")) (← readResumeData v))
  | "final" => return .final (← readFinal v)
  | "field" => return .field (← readField v)
  | "array" => return .array ⟨← readKind v⟩
  | "size" => return .size (← readSize v)
  | "call" => do
    let (args, result) ← readPair v
    return .call ⟨← readKinds args, ← readKind result⟩
  | "quasi" => return .quasiImmut (← readNat v)
  | _ => refuse "descr"

/-- An operation. Without a list of fail arguments it has none, which is not the empty list. -/
def readOperation (j : Json) : Step Operation := do
  let result ← match present? j "r" with
    | some v => pure (some (← readVar v))
    | none => pure none
  let failArgs ← match present? j "fail" with
    | some v => pure (some (← (← readArray v).mapM readOptVar))
    | none => pure none
  let descr ← match present? j "descr" with
    | some v => pure (some (← readDescr v))
    | none => pure none
  return { opcode := ← readOpCode (← field j "op"), args := ← readArgs j "args", result, failArgs,
           descr }

def readOperations (j : Json) (name : String) : Step (List Operation) := do
  (← items j name).mapM readOperation

def readInputs (j : Json) (name : String) : Step (List InputArg) := do
  (← items j name).mapM fun v => do
    let (var, value) ← readPair v
    return ⟨← readVar var, ← readValue value⟩

def readForwards (j : Json) : Step Forwarding := do
  (← items j "forwards").foldlM (fun t v => do
    let (var, arg) ← readPair v
    return t.forward (← readVar var) (← readArg arg)) .empty

/-- Remembered pure calls; a later one of the same arguments counts. -/
def readMemo (j : Json) : Step PureMemo := do
  let pairs ← (← readArray j).mapM fun v => do
    let (args, value) ← readPair v
    return (PureKey.ofValues (← (← readArray args).mapM readValue), ← readValue value)
  return .ofList pairs

def memoAt (j : Json) : Step PureMemo := do
  match present? j "pure" with
  | some m => readMemo m
  | none => return .empty

def readConfig (j : Json) : Step Config := do
  return {
    traceEagerness := ← natOr j "trace_eagerness" 200
    enableOpts := ← stringOr j "enable_opts" "all"
    loopLongevity := ← natOr j "loop_longevity" 1000
    counterBits := ← natOr j "counter_bits" 12
    traceJit := ← boolOr j "trace_jit" false }

def readKey (j : Json) : Step GreenKey := do
  return ⟨← (← readArray j).mapM fun n => do return Int64.ofInt (← readInt n)⟩

def keyOr (j : Json) (name : String) : Step GreenKey := do
  match present? j name with
  | some k => readKey k
  | none => return ⟨[]⟩

def makeUnits (j : Json) : Step Unit := do
  for entries in ← items j "units" do
    let kinds ← (← readArray entries).mapM readKinds
    let _ ← makeUnit 0 kinds

/-- A driver by its description; its warm state is set in the context. -/
def readDriver (id : Nat) (j : Json) : Step Driver := do
  let result ← match present? j "result" with
    | some k => readKind k
    | none => pure .int
  let base : Driver := {
    id, name := ← stringOr j "name" "d", redArgs := ← natOr j "red_args" 1, resultKind := result }
  let base ← match present? j "portal" with
    | some p => do
      let args ← readKinds (← field p "args")
      let kind ← readKind (← field p "result")
      let address ← readInt (← field p "addr")
      pure { base with portal := ⟨args, kind⟩, portalAddress := Int64.ofInt address }
    | none => pure base
  let base ← match present? j "vable" with
    | some v => do
      let info : Virtualizable := {
        staticFields := ← (← items v "static").mapM readField
        arrayFields := ← (← items v "arrays").mapM readField
        itemArrays := ← (← items v "item_types").mapM fun k => do return ⟨← readKind k⟩
        arrayLength := fixedLengths (← (← items v "lens").mapM readNat) }
      pure { base with virtualizable := some info, virtualizableIndex := ← natOr v "index" 0 }
    | none => pure base
  unless ← boolOr j "default_warm" false do
    match OptSet.parse (← stringOr j "opts" "all") with
    | .error e => refuse e
    | .ok opts =>
      let eagerness ← natOr j "eagerness" 3
      modify fun w => { w with context := w.context.setWarm base { opts, eagerness } }
  return base

def driverOf (j : Json) : Step Driver := do
  need "driver" (← get).drivers[← natOr j "driver" 0]?

def readFailDescr (j : Json) : Step FailDescr := do
  match present? j "final" with
  | some d => return .final (← readFinal d)
  | none => return .guard (← guardAt j "guard")

def readResumeKey (j : Json) : Step ResumeKey := do
  match present? j "guard" with
  | some _ => return .guard (← guardAt j "guard")
  | none => return .interpreter (← readKey (← field j "key"))

def fileAt (j : Json) : Step TraceFile := do
  need "file" (TraceFile.parse? (← field j "file").compact)

end HotLoop.Scenario
