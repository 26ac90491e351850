import EnglishScript.CommandLine
import Std.Time.DateTime.Timestamp

namespace EnglishScript.Main

/-- The bytes of a text as an array. -/
def bytes (t : Text) : ByteArray := ⟨t.toArray⟩

/-- A text as a path. -/
def pathString (t : Text) : String :=
  String.ofList t.chars

/-- The fault that a failure to read a file stands for. -/
def faultOf : IO.Error → PathFault
  | .noFileOrDirectory _ _ _ => .noSuchFile
  | .inappropriateType _ code _ => if code = 20 then .notDirectory else .isDirectory
  | _ => .isDirectory

/-- Reads a file. -/
def readFile (path : Text) : IO (Except PathFault Text) := do
  try
    let content ← IO.FS.readBinFile (pathString path)
    return .ok content.data.toList
  catch e => return .error (faultOf e)

/-- The time of day. -/
def clock : IO Clock := do
  let now ← Std.Time.Timestamp.now
  let seconds := (now.toSecondsSinceUnixEpoch.val % 86400).toNat
  let two (n : Nat) : Text := if n < 10 then 48 :: Text.ofNat n else Text.ofNat n
  return ⟨two (seconds / 3600) ++ [58] ++ two (seconds / 60 % 60) ++ [58] ++ two (seconds % 60), utf8 "0s"⟩

/-- A machine without programs. -/
def machine : Machine :=
  { files := ⟨utf8 "/tmp", []⟩, tempRoot := utf8 "/tmp", tempName := utf8 "ebpl_0.py", canceled := false }

/-- Writes to the two output streams. -/
def put (w : Written) : IO Unit := do
  let out ← IO.getStdout
  out.write (bytes w.out)
  out.flush
  let err ← IO.getStderr
  err.write (bytes w.err)
  err.flush

/-- Reads bytes up to the end of a line, or to the end of the input, where there is nothing left. -/
partial def readLine (input : IO.FS.Stream) (line : Text) : IO (Option Text) := do
  let next ← input.read 1
  match next.data.toList with
  | [] => return if line.isEmpty then none else some line
  | b :: _ => if b = 10 then return some (line ++ [10]) else readLine input (line ++ [b])

/-- Takes lines until the input ends. -/
partial def converse (input : IO.FS.Stream) (p : Prompt) : IO Prompt := do
  put (.stdout p.sign)
  match ← readLine input [] with
  | none => return p
  | some line =>
    let p : Prompt := { p with session := { p.session with clock := ← clock } }
    let (p, written) := p.take ((inputLines line).headD [])
    put written
    converse input p

/-- Writes the history to its file. -/
def keepHistory (p : Prompt) : IO Unit := do
  let path := p.session.config.historyFile
  let parents := (FileTree.pieces path).dropLast
  try
    if !parents.isEmpty then IO.FS.createDirAll (pathString (FileTree.pathOf parents))
    IO.FS.writeBinFile (pathString path) (bytes (History.toFile p.history))
  catch e => put (.stderr (utf8 (toString e) ++ [10]))

/-- Opens the prompt. -/
def prompt (session : Session) : IO Unit := do
  let found ← readFile session.config.historyFile
  let (p, before) := Prompt.withHistory session machine found
  put before
  keepHistory (← converse (← IO.getStdin) p)

/-- A directory named by the environment, or one below the home directory. -/
def directory (setting below : String) : IO Text := do
  match ← IO.getEnv setting with
  | some dir => return utf8 dir
  | none => return utf8 ((← IO.getEnv "HOME").getD "") ++ utf8 below

/-- Where the settings and the history are. -/
def home : IO CommandLine.Home := do
  return {
    config := (← directory "XDG_CONFIG_HOME" "/.config") ++ utf8 "/ebpl/config.yaml"
    history := (← directory "XDG_DATA_HOME" "/.local/share") ++ utf8 "/ebpl/.ebpl_history" }

/-- Runs the command with its arguments and gives its exit status. -/
def command (arguments : List Text) : IO Nat := do
  let home ← home
  match CommandLine.invocation home.config arguments with
  | .error e =>
    let (written, status) := CommandLine.refuse home e
    put written
    return status
  | .ok i =>
    match Config.load i.config (← readFile i.config) (Config.default home.history) with
    | (_, some e) => finish (some e.message)
    | (config, none) =>
      let session := Session.new config i.options (← clock)
      if i.input.isEmpty then
        prompt session
        return 0
      else
        match ← readFile i.input with
        | .error fault => finish (some (SessionError.unreadable i.input fault).message)
        | .ok source =>
          let step := session.runSource machine source
          put step.written
          finish (step.error.map SessionError.message)
where
  /-- Reports an error if there is one. -/
  finish (message : Option Text) : IO Nat := do
    let (written, status) := CommandLine.ending message
    put written
    return status

end EnglishScript.Main

/-- The command. Programs of the machine are not started: every interpreter counts as not installed. -/
def main (arguments : List String) : IO UInt32 := do
  return (← EnglishScript.Main.command (arguments.map EnglishScript.utf8)).toUInt32
