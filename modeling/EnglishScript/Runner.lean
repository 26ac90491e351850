import EnglishScript.FileTree
import EnglishScript.Text.Blank

namespace EnglishScript

/-- Why a run is told to end. -/
inductive Ending where
  | canceled
  | deadlineExceeded
  deriving DecidableEq, Repr

/-- The wording of the reason. -/
def Ending.message : Ending → Text
  | canceled => utf8 "context canceled"
  | deadlineExceeded => utf8 "context deadline exceeded"

/-- What a program that ran wrote, and its status. -/
structure Finished where
  stdout : Text
  stderr : Text
  status : Int
  deriving DecidableEq, Repr

/-- What comes of starting an interpreter on a program, given its place among the interpreters and its name: what the
interpreter did, or the text of the error that kept it from it. -/
abbrev Host : Type := Nat → Text → Text → Except Text Finished

/-- What a run produced. -/
structure RunOutput where
  interpreter : Text
  stdout : Text
  stderr : Text
  status : Int
  deriving DecidableEq, Repr

namespace RunOutput

/-- The output where nothing ran. -/
def none : RunOutput := ⟨[], [], [], 0⟩

/-- Whether the interpreter was only a shell that could not find it. -/
def saysNotFound (o : RunOutput) : Bool :=
  o.status ≠ 0 && Text.hasInfix (utf8 "not found") o.stderr

end RunOutput

/-- Why an interpreter did not run the program. -/
inductive Setback where
  | unstartable (name : Text) (reason : Text)
  | absent (name : Text) (complaint : Text)
  | ended (name : Text) (reason : Ending)
  deriving DecidableEq, Repr

/-- The message of a setback. -/
def Setback.message : Setback → Text
  | unstartable name reason => name ++ utf8 ": " ++ reason
  | absent name complaint => name ++ utf8 ": " ++ complaint
  | ended name reason => name ++ utf8 ": " ++ reason.message

/-- Why a run failed. -/
inductive RunnerError where
  | tempFile (path : Text) (fault : PathFault)
  | setback (s : Setback)
  | noInterpreter (setbacks : List Setback)
  deriving DecidableEq, Repr

/-- The message of the error. -/
def RunnerError.message : RunnerError → Text
  | tempFile path fault => utf8 "create temp file: open " ++ path ++ utf8 ": " ++ fault.message
  | setback s => s.message
  | noInterpreter setbacks =>
    utf8 "no python interpreter found: "
      ++ (if setbacks.isEmpty then utf8 "%!w(<nil>)" else Text.join (utf8 "\n") (setbacks.map Setback.message))

/-- How generated programs are run. The timeout is in nanoseconds; without one, or with none above zero, there is no
deadline. -/
structure Runner where
  interpreters : List Text
  timeout : Int
  tempDir : Text
  deriving DecidableEq, Repr

/-- What came of a run: output or error, the lines of the log, and the interpreters tried. -/
structure RunRecord where
  output : RunOutput
  error : Option RunnerError
  log : List Text
  tried : List Text
  deriving DecidableEq, Repr

namespace Runner

/-- The interpreters tried where none are named. -/
def defaultInterpreters : List Text := [utf8 "python", utf8 "python3"]

/-- A runner for the given interpreters. -/
def new (interpreters : List Text) : Runner :=
  ⟨if interpreters.isEmpty then defaultInterpreters else interpreters, 10000000000, []⟩

/-- Starts one interpreter, unless the run is told to end meanwhile. -/
def attempt (host : Host) (heard : Option Ending) (program name : Text) (place : Nat) : Except Setback RunOutput :=
  match heard, host place name program with
  | some reason, _ => .error (.ended name reason)
  | none, .error reason => .error (.unstartable name reason)
  | none, .ok f => .ok ⟨name, f.stdout, f.stderr, f.status⟩

/-- Tries interpreters in order, each given with its place. The run asks twice for each whether it is to end: after the
interpreter, where the answer takes the place of what it gave, and before the next one, where the answer only stops the
run. -/
def tryEach (host : Host) (asks : Nat → Option Ending) (program path : Text) :
    List Setback → List (Text × Nat) → RunRecord
  | setbacks, [] => ⟨.none, some (.noInterpreter setbacks), [], []⟩
  | setbacks, (name, place) :: rest =>
    let again (line : Text) (s : Setback) : RunRecord :=
      let r := tryEach host asks program path (setbacks ++ [s]) rest
      { r with log := line :: r.log, tried := name :: r.tried }
    match asks (2 * place + 1), attempt host (asks (2 * place)) program name place with
    | some _, .error s => ⟨.none, some (.setback s), [], [name]⟩
    | some _, .ok _ => ⟨.none, none, [], [name]⟩
    | none, .error s => again (name ++ utf8 ": " ++ s.message) s
    | none, .ok o =>
      if o.saysNotFound then
        let s := Setback.absent name o.stderr.trim
        again s.message s
      else
        let line := utf8 "ran " ++ path ++ utf8 " with " ++ name ++ utf8 " (exit " ++ Text.ofInt o.status ++ utf8 ")"
        ⟨o, none, [line], [name]⟩

/-- The path of a temporary file in a directory. -/
def tempPath (dir name : Text) : Text :=
  if dir.getLast? == some FileTree.slash then dir ++ name else dir ++ [FileTree.slash] ++ name

/-- Runs a program from a temporary file with a name that is free. The file is taken away again, whatever comes of the
run. -/
def run (r : Runner) (host : Host) (asks : Nat → Option Ending) (tempRoot tempName program : Text) (files : FileTree) :
    RunRecord × FileTree :=
  let path := tempPath (if r.tempDir.isEmpty then tempRoot else r.tempDir) tempName
  match files.write path program with
  | .error fault => (⟨.none, some (.tempFile path fault), [], []⟩, files)
  | .ok withFile => (tryEach host asks program path [] r.interpreters.zipIdx, withFile.remove path)

end Runner

end EnglishScript
