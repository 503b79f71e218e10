import HotLoop.Text.Digits

/-!
# Arguments

The commands of the program and how they are given. Arguments are taken from left to right: the
first one that cannot be taken makes the whole line wrong, and a request for help before that point
is answered. A value stands behind its option or, with an equals sign, in the same argument; only
the format of the statistics has to be given in the second way. Behind two dashes, every argument
is the name of a file.
-/

namespace HotLoop

inductive StatsFormat where
  | human
  | json
  deriving DecidableEq, Repr, Inhabited

structure RunOptions where
  file : String := ""
  config : Option String := none
  noUnroll : Bool := false
  traceEagerness : Option Nat := none
  enableOpts : Option String := none
  dump : Bool := false
  stats : Option StatsFormat := none
  traceJit : Bool := false
  deriving DecidableEq, Repr, Inhabited

inductive HelpTopic where
  | program
  | run
  | config
  | help
  deriving DecidableEq, Repr, Inhabited

inductive Command where
  | run (options : RunOptions)
  | config
  | help (topic : HelpTopic)
  deriving DecidableEq, Repr, Inhabited

inductive Argument where
  /-- A name behind two dashes, and what follows the equals sign. -/
  | long (name : String) (value : Option String)
  | short (letters : List Char)
  | separator
  | plain (text : String)
  deriving DecidableEq, Repr

namespace Argument

/-- The form of an argument; a dash alone is plain. -/
def ofString (s : String) : Argument :=
  match s.toList with
  | ['-', '-'] => .separator
  | '-' :: '-' :: cs =>
    match cs.span (· != '=') with
    | (name, '=' :: value) => .long (String.ofList name) (some (String.ofList value))
    | (name, _) => .long (String.ofList name) none
  | '-' :: c :: cs => .short (c :: cs)
  | _ => .plain s

def asksHelp : Argument → Bool
  | .long name value => name == "help" && value.isNone
  | .short letters => letters.head? == some 'h'
  | _ => false

end Argument

def readInteger? (s : String) : Option Int :=
  let (negative, digits) := match s.toList with
    | '+' :: cs => (false, cs)
    | '-' :: cs => (true, cs)
    | cs => (false, cs)
  match digits.mapM Text.digit? with
  | none | some [] => none
  | some ds =>
    let n : Int := Text.ofDigits 10 ds
    some (if negative then -n else n)

/-- A 32-bit natural. It may have a sign, which is a minus for zero only. -/
def readNat32? (s : String) : Option Nat :=
  (readInteger? s).bind fun n => if 0 ≤ n ∧ n < UInt32.size then some n.toNat else none

namespace RunOptions

def setOnce {α : Type} (old : Option α) (new : α) : Option (Option α) :=
  if old.isSome then none else some (some new)

def setFlag? (o : RunOptions) : String → Option RunOptions
  | "no-unroll" => if o.noUnroll then none else some { o with noUnroll := true }
  | "dump" => if o.dump then none else some { o with dump := true }
  | "trace-jit" => if o.traceJit then none else some { o with traceJit := true }
  | "stats" => do return { o with stats := ← setOnce o.stats .human }
  | _ => none

/-- Takes an option with its value. Names of files are not empty. -/
def setValue? (o : RunOptions) (name value : String) : Option RunOptions :=
  match name with
  | "config" =>
    if value.isEmpty then none else do return { o with config := ← setOnce o.config value }
  | "trace-eagerness" => do
    return { o with traceEagerness := ← setOnce o.traceEagerness (← readNat32? value) }
  | "enable-opts" => do return { o with enableOpts := ← setOnce o.enableOpts value }
  | "stats" => do
    let format ← match value with
      | "human" => some .human
      | "json" => some .json
      | _ => none
    return { o with stats := ← setOnce o.stats format }
  | _ => none

def takesNext (name : String) : Bool :=
  name == "config" || name == "trace-eagerness" || name == "enable-opts"

def setFile? (o : RunOptions) (name : String) : Option RunOptions :=
  if name.isEmpty || !o.file.isEmpty then none else some { o with file := name }

def complete? (o : RunOptions) : Option Command :=
  if o.file.isEmpty then none else some (.run o)

end RunOptions

namespace Command

def parseRun? (o : RunOptions) : List String → Option Command
  | [] => o.complete?
  | s :: rest =>
    let a := Argument.ofString s
    if a.asksHelp then some (.help .run)
    else match a with
      | .separator => (rest.foldlM RunOptions.setFile? o).bind (·.complete?)
      | .plain name => do parseRun? (← o.setFile? name) rest
      | .short _ => none
      | .long name (some value) => do parseRun? (← o.setValue? name value) rest
      | .long name none =>
        if RunOptions.takesNext name then
          match rest with
          | next :: rest =>
            match Argument.ofString next with
            | .plain value => do parseRun? (← o.setValue? name value) rest
            | _ => none
          | [] => none
        else do parseRun? (← o.setFlag? name) rest

def parseConfig? : List String → Option Command
  | [] => some .config
  | s :: rest =>
    let a := Argument.ofString s
    if a.asksHelp then some (.help .config)
    else if a = .separator ∧ rest = [] then some .config
    else none

def parseHelp? : List String → Option Command
  | [] => some (.help .program)
  | ["run"] => some (.help .run)
  | ["config"] => some (.help .config)
  | ["help"] => some (.help .help)
  | _ => none

def parse? : List String → Option Command
  | [] => none
  | "run" :: rest => parseRun? {} rest
  | "config" :: rest => parseConfig? rest
  | "help" :: rest => parseHelp? rest
  | s :: _ => if (Argument.ofString s).asksHelp then some (.help .program) else none

end Command

end HotLoop
