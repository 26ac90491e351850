import EnglishScript.Compiler.Report
import EnglishScript.Config
import EnglishScript.Machine

namespace EnglishScript

/-- The switches of a session. -/
structure Options where
  tokens : Bool
  ast : Bool
  run : Bool
  eval : Bool
  verify : Bool
  json : Bool
  verbose : Bool
  deriving DecidableEq, Repr

/-- No switch is on. -/
def Options.none : Options := ⟨false, false, false, false, false, false, false⟩

/-- What is written to the two output streams. -/
structure Written where
  out : Text
  err : Text
  deriving DecidableEq, Repr

namespace Written

/-- Nothing is written. -/
def nothing : Written := ⟨[], []⟩

/-- First the one, then the other. -/
def append (a b : Written) : Written := ⟨a.out ++ b.out, a.err ++ b.err⟩

instance : Append Written := ⟨append⟩

/-- Text on the standard output. -/
def stdout (t : Text) : Written := ⟨t, []⟩

/-- Text on the standard error. -/
def stderr (t : Text) : Written := ⟨[], t⟩

end Written

/-- How times show in the log. -/
structure Clock where
  time : Text
  span : Text
  deriving DecidableEq, Repr

/-- Why a session could not do what it was asked. -/
inductive SessionError where
  | compilation (reason : Option Text)
  | evaluation (e : RunError)
  | runner (e : RunnerError)
  | exited (interpreter : Text) (status : Int)
  | unreadable (path : Text) (fault : PathFault)
  deriving DecidableEq, Repr

/-- The message of the error. -/
def SessionError.message : SessionError → Text
  | compilation none => utf8 "compilation failed"
  | compilation (some reason) => utf8 "compilation failed: " ++ reason
  | evaluation e => e.message
  | runner e => e.message
  | exited interpreter status => interpreter ++ utf8 " exited with status " ++ Text.ofInt status
  | unreadable path fault => FileTree.readMessage path fault

/-- A session. -/
structure Session where
  config : Config
  options : Options
  clock : Clock
  evaluator : Evaluator

/-- What came of a step of a session: the session and the machine afterwards, what was written, and the error. -/
structure Step where
  session : Session
  machine : Machine
  written : Written
  error : Option SessionError

namespace Session

/-- A session without variables. -/
def new (config : Config) (options : Options) (clock : Clock) : Session :=
  ⟨config, options, clock, { Evaluator.new with maxSteps := config.maxSteps }⟩

/-- The runner of a session. -/
def runner (s : Session) : Runner :=
  { Runner.new s.config.interpreters with timeout := s.config.timeout, tempDir := s.config.tempDir }

/-- Lines of the log, which are written only in a verbose session. -/
def log (s : Session) (lines : List Text) : Written :=
  if s.options.verbose then
    .stderr (lines.flatMap fun line => utf8 "ebpl: " ++ s.clock.time ++ [32] ++ line ++ [10])
  else .nothing

/-- A listing with its title and an empty line behind it. -/
def listing (title : String) (lines : List Text) : Text :=
  utf8 "# " ++ utf8 title ++ [10] ++ Text.unlines lines ++ [10]

/-- The listings asked for. -/
def listings (s : Session) (r : CompileResult) : Text :=
  (if s.options.tokens then listing "Tokens" r.tokens else [])
    ++ (if s.options.ast then listing "AST" r.statements else [])

/-- Runs a program in process. -/
def evaluate (s : Session) (m : Machine) (p : Program) : Step :=
  let o := s.evaluator.run (fun _ => false) p
  ⟨{ s with evaluator := o.evaluator }, m, .stdout o.stdout, o.error.map .evaluation⟩

/-- Hands generated code to an interpreter. -/
def interpret (s : Session) (m : Machine) (code : Text) : Step :=
  let (record, m) := m.run s.runner code
  let log := s.log record.log
  match record.error with
  | some e => ⟨s, m, log, some (.runner e)⟩
  | none =>
    let o := record.output
    ⟨s, m, log ++ ⟨o.stdout, o.stderr⟩, if o.status = 0 then none else some (.exited o.interpreter o.status)⟩

/-- What is done with a program that compiled. -/
def act (s : Session) (m : Machine) (r : CompileResult) (p : Program) : Step :=
  if s.options.eval then s.evaluate m p
  else if s.options.run then s.interpret m r.code
  else ⟨s, m, .stdout r.code, none⟩

/-- Puts what was written before in front. -/
def preceded (before : Written) (step : Step) : Step :=
  { step with written := before ++ step.written }

/-- The line of the log about a compilation. -/
def compiledLine (s : Session) (success : Bool) : Text :=
  utf8 "compiled in " ++ s.clock.span ++ utf8 " (success=" ++ utf8 (if success then "true" else "false") ++ utf8 ")"

/-- Compiles a source and does with it what the switches say. -/
def runSource (s : Session) (m : Machine) (source : Text) : Step :=
  let (result, compiler) := (Compiler.new (s.options.verify || s.config.verify)).compile source
  preceded (s.log [s.compiledLine result.success])
    (if s.options.json then
      ⟨s, m, .stdout result.json, if result.success then none else some (.compilation none)⟩
    else
      match result.success, compiler.program with
      | true, some p => preceded (.stdout (s.listings result)) (s.act m result p)
      | _, _ => ⟨s, m, .nothing, some (.compilation (some result.error))⟩)

/-- Compiles the source in a file. -/
def runFile (s : Session) (m : Machine) (path : Text) : Step :=
  match m.files.read path with
  | .error fault => ⟨s, m, .nothing, some (.unreadable path fault)⟩
  | .ok source => s.runSource m source

end Session

end EnglishScript
