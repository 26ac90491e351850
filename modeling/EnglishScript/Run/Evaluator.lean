import EnglishScript.Run.Evaluation

namespace EnglishScript

/-- Whether the context of a run has ended when a step is due, by the number of steps before it. -/
abbrev Context := Nat → Bool

namespace Context

/-- A context that never ends. -/
def background : Context := fun _ => false

/-- A context that has ended before the run. -/
def ended : Context := fun _ => true

end Context

/-- The state of a run: the variables, the printed texts with the newest first, and the steps taken. -/
structure RunState where
  env : Env
  printed : List Text
  steps : Nat
  deriving DecidableEq, Repr

namespace RunState

/-- Everything printed so far. -/
def stdout (s : RunState) : Text :=
  s.printed.reverse.flatten

/-- The state with one variable set. -/
def assign (s : RunState) (name : Text) (v : Value) : RunState :=
  { s with env := s.env.set name v }

/-- The state after a line is printed. -/
def print (s : RunState) (v : Value) : RunState :=
  { s with printed := (v.text ++ [Text.lf]) :: s.printed }

end RunState

/-- A piece of a run: the state after it, and the error that stopped it. -/
abbrev Action := RunState → RunState × Option RunError

namespace Action

/-- Does nothing. -/
@[inline] def done : Action := fun s => (s, none)

/-- Stops with an error. -/
@[inline] def stop (e : RunError) : Action := fun s => (s, some e)

/-- One action after the other, unless the first one stops. -/
@[inline] def andThen (first second : Action) : Action := fun s =>
  match first s with
  | (s, none) => second s
  | (s, some e) => (s, some e)

/-- Evaluates an expression and goes on with its value. -/
@[inline] def withValue [Python.Decoder] (e : Expr) (next : Value → Action) : Action := fun s =>
  match e.eval s.env with
  | .ok v => next v s
  | .error err => (s, some err)

/-- What the counter of the steps shows after so many of them. It is a number of 64 bits with a sign, and behind the
largest one it goes on with the least. -/
def counter (steps : Nat) : Int64 :=
  .ofNat steps

/-- Starts a step: the context must not have ended, and the counter must not be above the limit. -/
def step (limit : Int) (ctx : Context) : Action := fun s =>
  if ctx s.steps then (s, some .canceled)
  else
    let s := { s with steps := s.steps + 1 }
    if 0 < limit && limit < (counter s.steps).toInt then (s, some (.stepLimit limit)) else (s, none)

/-- Repeats a body while a condition holds, at most `turns` times. -/
def repeatWhile [Python.Decoder] (cond : Expr) (body : Action) : Nat → Action
  | 0 => withValue cond fun v => if v.truthy then stop .horizon else done
  | turns + 1 => withValue cond fun v =>
    if v.truthy then body.andThen (repeatWhile cond body turns) else done

end Action

/-- The bound of a run: the step limit, none unless it is positive, and the context. -/
structure Bound where
  limit : Int
  ctx : Context

namespace Bound

/-- Whether the limit stops runs: there is one, and the counter can come to be above it. -/
def stops (b : Bound) : Bool :=
  0 < b.limit && b.limit < Int64.maxValue.toInt

/-- The most turns of a loop in a run that no limit stops. A loop that wants more of them ends there with an error of its
own, where the loop of an interpreter would go on. -/
def horizon : Nat := Nat.pow 2 63

/-- The turns that a loop may need: one more than the limit allows, so that a limit that stops runs strikes first. -/
def turns (b : Bound) : Nat :=
  if b.stops then b.limit.toNat + 1 else horizon

/-- Starts a step within the bound. -/
def step (b : Bound) : Action :=
  Action.step b.limit b.ctx

end Bound

mutual

/-- Runs a statement. -/
def Stmt.exec [Python.Decoder] (b : Bound) : Stmt → Action
  | .create name value => Action.withValue value fun v s => (s.assign name.lexeme v, none)
  | .assign name value => Action.withValue value fun v s => (s.assign name.lexeme v, none)
  | .print _ value => Action.withValue value fun v s => (s.print v, none)
  | .branch _ cond yes no => Action.withValue cond fun v =>
    if v.truthy then execBlock b yes
    else
      match no with
      | some block => execBlock b block
      | none => Action.done
  | .loop _ cond block => Action.repeatWhile cond (b.step.andThen (execBlock b block)) b.turns
  | .hole => Action.stop (.fault .missingStatement)

/-- Runs the statements of a block in order, each one a step. -/
def execBlock [Python.Decoder] (b : Bound) : List Stmt → Action
  | [] => Action.done
  | s :: rest => b.step.andThen ((s.exec b).andThen (execBlock b rest))

end

/-- Refuses a name that is a word of Python. -/
def checkName (name : Token) : Option RunError :=
  if Python.reserved.contains name.lexeme then some (.raised name (.keyword name.lexeme)) else none

/-- What Python would refuse to compile at a node: a name that is a keyword, or a literal that cannot be read. -/
def Node.refusal? [Python.Decoder] : Node → Option RunError
  | .stmt (.create name _) => checkName name
  | .stmt (.assign name _) => checkName name
  | .expr (.var name) => checkName name
  | .expr (.string token raw) =>
    match Evaluation.literal token raw with
    | .ok _ => none
    | .error e => some e
  | .stmt .hole | .expr .hole => some (.fault .missingNode)
  | _ => none

/-- The first thing in a program that Python would refuse to compile. -/
def Program.refusal? [Python.Decoder] (p : Program) : Option RunError :=
  (Program.walk p).findSome? Node.refusal?

/-- An evaluator keeps its variables from one run to the next. -/
structure Evaluator where
  env : Env
  maxSteps : Int
  deriving DecidableEq, Repr

namespace Evaluator

/-- The step limit of a new evaluator. -/
def defaultMaxSteps : Int := 1000000

/-- An evaluator without variables. -/
def new : Evaluator := ⟨.empty, defaultMaxSteps⟩

/-- The outcome of a run: the evaluator afterwards, what was printed, and the error. -/
structure Outcome where
  evaluator : Evaluator
  stdout : Text
  error : Option RunError
  deriving DecidableEq, Repr

/-- Runs a program, unless Python would refuse it. -/
def run [Python.Decoder] (ev : Evaluator) (ctx : Context) (p : Program) : Outcome :=
  match Program.refusal? p with
  | some e => ⟨ev, [], some e⟩
  | none =>
    let (s, error) := execBlock ⟨ev.maxSteps, ctx⟩ p ⟨ev.env, [], 0⟩
    ⟨{ ev with env := s.env }, s.stdout, error⟩

/-- The value of an expression with the current variables. -/
def eval [Python.Decoder] (ev : Evaluator) (e : Expr) : Except RunError Value :=
  e.eval ev.env

end Evaluator

end EnglishScript
