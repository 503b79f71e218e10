import HotLoop.Proofs.Execution.Machine

/-!
# Going round a loop

A recorded loop is executed round by round: the inputs take the values that the last round has
handed on. Compiled code is executed turn by turn, from a label to the next label or to the closing
jump, which names the label where the next turn starts. Behind a label its arguments have values and
no other variable keeps one.
-/

namespace HotLoop

variable {σ : Type}

def fromLabel (descr : Option Descr) (code : List Site) : List Site :=
  code.dropWhile fun s => !(s.op.opcode = .label && s.op.descr = descr)

theorem fromLabel_append {before : List Site} (label : Site) (rest : List Site)
    (hbefore : ∀ s ∈ before, s.op.opcode = .label → s.op.descr ≠ label.op.descr)
    (hlabel : label.op.opcode = .label) :
    fromLabel label.op.descr (before ++ label :: rest) = label :: rest := by
  unfold fromLabel
  rw [List.dropWhile_append_of_pos]
  · rw [List.dropWhile_cons_of_neg]
    simp [hlabel]
  · intro s hs
    have := hbefore s hs
    by_cases hop : s.op.opcode = .label
    · simp [hop, this hop]
    · simp [hop]

theorem fromLabel_cons (label : Site) (rest : List Site) (hlabel : label.op.opcode = .label) :
    fromLabel label.op.descr (label :: rest) = label :: rest :=
  fromLabel_append label rest (List.forall_mem_nil _) hlabel

/-- Goes on where a round or a turn has stopped, unless the loop is left for good. -/
def Ending.andThen (ending : Ending σ) (next : Option Descr → List Value → σ → Ending σ) :
    Ending σ :=
  match ending with
  | .stops op descr vals st => if op = .finish then ending else next descr vals st
  | ending => ending

theorem Ending.andThen_stops {op : OpCode} (h : op ≠ .finish) (descr : Option Descr)
    (vals : List Value) (st : σ) (next : Option Descr → List Value → σ → Ending σ) :
    (Ending.stops op descr vals st).andThen next = next descr vals st := if_neg h

namespace Machine

/-- One turn from a label on, whose arguments take the given values. -/
def leg (M : Machine σ) (memo : PureMemo) (base : Env) : List Site → List Value → σ → Ending σ
  | label :: rest, vals, st => M.run memo rest (base.bind label.op.argVars vals) st
  | [], _, st => .ends st

/-- At most `n` turns of compiled code, from the label with the given descriptor on. -/
def turns (M : Machine σ) (memo : PureMemo) (base : Env) (code : List Site) :
    Nat → Option Descr → List Value → σ → Ending σ
  | 0, _, vals, st => .stops .label none vals st
  | n + 1, descr, vals, st =>
    (M.leg memo base (fromLabel descr code) vals st).andThen (M.turns memo base code n)

def rounds (M : Machine σ) (memo : PureMemo) (base : Env) (inputs : List Var)
    (body : List Site) : Nat → List Value → σ → Ending σ
  | 0, vals, st => .stops .label none vals st
  | n + 1, vals, st =>
    (M.run memo body (base.bind inputs vals) st).andThen fun _ =>
      M.rounds memo base inputs body n

end Machine

/--
A round and a turn that come to the same: both stop with the same `len` values, the turn in front of
the label with the descriptor `descr`, or both fail.
-/
inductive SameLeg (len : Nat) (descr : Option Descr) : Ending σ → Ending σ → Prop where
  | stops {op op' : OpCode} {descr' : Option Descr} {vals : List Value} {st : σ}
      (hop : op ≠ .finish) (hop' : op' ≠ .finish) (hlen : vals.length = len) :
      SameLeg len descr (.stops op descr' vals st) (.stops op' descr vals st)
  | fails (origin : Nat) (exit : List (Option Value)) (st : σ) :
      SameLeg len descr (.fails origin exit st) (.fails origin exit st)

section Turns

variable {M : Machine σ} {memo : PureMemo} {base : Env} {inputs : List Var}
  {body code : List Site} {len : Nat} {descr start : Option Descr}

private theorem turns_succ {n : Nat} {vals : List Value} {st : σ}
    (hleg : SameLeg len descr (M.run memo body (base.bind inputs vals) st)
      (M.leg memo base (fromLabel start code) vals st))
    (hrest : ∀ vals, vals.length = len → ∀ st,
      M.turns memo base code n descr vals st = M.rounds memo base inputs body n vals st) :
    M.turns memo base code (n + 1) start vals st =
      M.rounds memo base inputs body (n + 1) vals st := by
  rw [Machine.turns, Machine.rounds]
  generalize M.run memo body (base.bind inputs vals) st = a at hleg
  generalize M.leg memo base (fromLabel start code) vals st = b at hleg
  cases hleg with
  | stops hop hop' hlen =>
    rw [Ending.andThen_stops hop, Ending.andThen_stops hop']
    exact hrest _ hlen _
  | fails origin exit st' => rfl

theorem turns_eq_rounds_of_length (hnext : ∀ vals, vals.length = len → ∀ st,
      SameLeg len descr (M.run memo body (base.bind inputs vals) st)
        (M.leg memo base (fromLabel descr code) vals st))
    (n : Nat) {vals : List Value} (hlen : vals.length = len) (st : σ) :
    M.turns memo base code n descr vals st = M.rounds memo base inputs body n vals st := by
  induction n generalizing vals st with
  | zero => rfl
  | succ n ih => exact turns_succ (hnext vals hlen st) fun vals hlen st => ih hlen st

theorem turns_eq_rounds (len : Nat) (descr : Option Descr)
    (hfirst : ∀ vals st, SameLeg len descr (M.run memo body (base.bind inputs vals) st)
      (M.leg memo base (fromLabel start code) vals st))
    (hnext : ∀ vals, vals.length = len → ∀ st,
      SameLeg len descr (M.run memo body (base.bind inputs vals) st)
        (M.leg memo base (fromLabel descr code) vals st))
    (n : Nat) (vals : List Value) (st : σ) :
    M.turns memo base code n start vals st = M.rounds memo base inputs body n vals st := by
  cases n with
  | zero => rfl
  | succ n =>
    exact turns_succ (hfirst vals st) fun _ hlen st => turns_eq_rounds_of_length hnext n hlen st

end Turns

end HotLoop
