import EnglishScript.Session

namespace EnglishScript

/-- The lines of a text. A line ends in a line feed or in a carriage return and a line feed; a last line without one
counts. -/
def inputLines (t : Text) : List Text :=
  let pieces := Text.splitLines t
  let ended := pieces.dropLast.map fun line => if line.getLast? == some 13 then line.dropLast else line
  match pieces.getLast? with
  | some [] | none => ended
  | some last => ended ++ [last]

namespace History

/-- How many lines are kept; the oldest go first. -/
def limit : Nat := 1000

/-- The length from which on a line of a history file is refused. -/
def longestLine : Nat := 4096

/-- Keeps the newest lines. -/
def trimmed (lines : List Text) : List Text :=
  lines.drop (lines.length - limit)

/-- Adds a line, unless it is the newest one already. -/
def add (lines : List Text) (line : Text) : List Text :=
  if lines.getLast? == some line then lines else trimmed (lines ++ [line])

/-- The lines of a history file up to the first that cannot be taken, and what is wrong with that; lines are counted
from one. -/
def readFrom : Nat → List Text → List Text × Option Text
  | _, [] => ([], none)
  | n, line :: rest =>
    if longestLine ≤ line.length then ([], some (utf8 "line " ++ Text.ofNat n ++ utf8 " is too long"))
    else if !line.isUtf8 then ([], some (utf8 "invalid string at line " ++ Text.ofNat n))
    else
      let (lines, problem) := readFrom (n + 1) rest
      (line :: lines, problem)

/-- Reads a history file. -/
def ofFile (content : Text) : List Text × Option Text :=
  let (lines, problem) := readFrom 1 (inputLines content)
  (trimmed lines, problem)

/-- The content of the history file. -/
def toFile (lines : List Text) : Text :=
  Text.unlines lines

end History

/-- The state of the prompt: the lines of the block so far, and the history. -/
structure Prompt where
  session : Session
  machine : Machine
  block : List Text
  history : List Text

namespace Prompt

/-- What is shown before a line is read. -/
def sign (p : Prompt) : Text :=
  if p.block.isEmpty then utf8 "> " else utf8 ". "

/-- Runs the block and begins a new one. An error is reported and has no other effect. -/
def runBlock (p : Prompt) : Prompt × Written :=
  let step := p.session.runSource p.machine (Text.join [10] p.block)
  let report : Written :=
    match step.error with
    | some e => .stderr (utf8 "Error: " ++ e.message ++ [10])
    | none => .nothing
  ({ p with session := step.session, machine := step.machine, block := [] }, step.written ++ report)

/-- Takes a line. -/
def take (p : Prompt) (line : Text) : Prompt × Written :=
  if !line.isBlank then ({ p with block := p.block ++ [line], history := History.add p.history line }, .nothing)
  else if p.block.isEmpty then (p, .nothing)
  else p.runBlock

/-- Takes all lines up to the end of the input, showing the sign before each and before the end. -/
def takeAll : Prompt → List Text → Prompt × Written
  | p, [] => (p, .stdout p.sign)
  | p, line :: rest =>
    let (next, written) := p.take line
    let (last, more) := next.takeAll rest
    (last, .stdout p.sign ++ written ++ more)

/-- A prompt with the history found in its file. A file that is not there is no error. -/
def withHistory (session : Session) (machine : Machine) (found : Except PathFault Text) : Prompt × Written :=
  match found with
  | .ok content =>
    let (lines, problem) := History.ofFile content
    (⟨session, machine, [], lines⟩,
      match problem with
      | some p => .stderr (p ++ [10])
      | none => .nothing)
  | .error .isDirectory =>
    (⟨session, machine, [], []⟩,
      .stderr (FileTree.readMessage session.config.historyFile .isDirectory ++ [10]))
  | .error _ => (⟨session, machine, [], []⟩, .nothing)

/-- A prompt with the history of its file. -/
def start (session : Session) (machine : Machine) : Prompt × Written :=
  withHistory session machine (machine.files.read session.config.historyFile)

/-- Writes the history to its file and makes the directories for it. A file that cannot be written is left alone. -/
def finish (p : Prompt) : Machine × Written :=
  let path := p.session.config.historyFile
  let (files, problem) :=
    match p.machine.files.makeParents path with
    | .ok files => (files, Written.nothing)
    | .error file => (p.machine.files, .stderr (utf8 "mkdir " ++ file ++ utf8 ": not a directory\n"))
  match files.write path (History.toFile p.history) with
  | .ok files => ({ p.machine with files }, problem)
  | .error _ => ({ p.machine with files }, problem)

/-- A whole dialogue: the history is read, the lines are taken, and the history is written. -/
def dialogue (session : Session) (machine : Machine) (input : Text) : Machine × Written :=
  let (p, before) := start session machine
  let (p, during) := p.takeAll (inputLines input)
  let (machine, after) := p.finish
  (machine, before ++ during ++ after)

end Prompt

end EnglishScript
