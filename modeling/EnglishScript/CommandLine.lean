import EnglishScript.Prompt

namespace EnglishScript

/-- What the flags ask for. -/
structure Invocation where
  input : Text
  config : Text
  options : Options
  deriving DecidableEq, Repr

/-- What is wrong with the flags. -/
inductive FlagError where
  | help
  | malformed (argument : Text)
  | undefined (name : Text)
  | missingValue (name : Text)
  | notBoolean (name value : Text)
  deriving DecidableEq, Repr

/-- The line about the error; a call for help has none. -/
def FlagError.message? : FlagError → Option Text
  | help => none
  | malformed argument => some (utf8 "bad flag syntax: " ++ argument)
  | undefined name => some (utf8 "flag provided but not defined: -" ++ name)
  | missingValue name => some (utf8 "flag needs an argument: -" ++ name)
  | notBoolean name value =>
    some (utf8 "invalid boolean value " ++ Text.quoted value ++ utf8 " for -" ++ name ++ utf8 ": parse error")

namespace CommandLine

/-- How a flag changes the invocation: by a truth value or by a text. -/
inductive Setter where
  | switch (set : Bool → Options → Options)
  | text (set : Text → Invocation → Invocation)

/-- A flag of the command. -/
structure Flag where
  name : String
  usage : String
  setter : Setter

/-- The flags of the command, by name. -/
def flags : List Flag :=
  [⟨"ast", "print the statement summary", .switch fun b o => { o with ast := b }⟩,
    ⟨"config", "config file path", .text fun t i => { i with config := t }⟩,
    ⟨"eval", "evaluate the program in-process", .switch fun b o => { o with eval := b }⟩,
    ⟨"i", "input file path (shorthand)", .text fun t i => { i with input := t }⟩,
    ⟨"input", "input file path", .text fun t i => { i with input := t }⟩,
    ⟨"json", "print the compile result as JSON", .switch fun b o => { o with json := b }⟩,
    ⟨"run", "run the generated code with a python interpreter", .switch fun b o => { o with run := b }⟩,
    ⟨"tokens", "print the token listing", .switch fun b o => { o with tokens := b }⟩,
    ⟨"v", "log progress to stderr", .switch fun b o => { o with verbose := b }⟩,
    ⟨"verify", "check that the generated code parses as python", .switch fun b o => { o with verify := b }⟩]

/-- The truth value that a word stands for. -/
def bool? (t : Text) : Option Bool :=
  if ["1", "t", "T", "true", "TRUE", "True"].any (utf8 · == t) then some true
  else if ["0", "f", "F", "false", "FALSE", "False"].any (utf8 · == t) then some false
  else none

/-- The name of a flag, and the value behind an equals sign. The sign cannot be first. -/
def splitValue (t : Text) : Text × Option Text :=
  match t with
  | [] => ([], none)
  | b :: rest =>
    let name := b :: rest.takeWhile (· != 61)
    match rest.dropWhile (· != 61) with
    | _ :: value => (name, some value)
    | [] => (name, none)

/-- An argument seen as a flag: nothing if it is none, and its name without dashes otherwise. -/
def flagName? (argument : Text) : Except FlagError (Option Text) :=
  match argument with
  | 45 :: b :: rest =>
    if b = 45 && rest.isEmpty then .ok none
    else
      let name := if b = 45 then rest else b :: rest
      match name.head? with
      | none | some 45 | some 61 => .error (.malformed argument)
      | some _ => .ok (some name)
  | _ => .ok none

/-- Sets a switch. -/
def setSwitch (set : Bool → Options → Options) (name : Text) (value : Option Text) (i : Invocation) :
    Except FlagError Invocation :=
  match value with
  | none => .ok { i with options := set true i.options }
  | some v =>
    match bool? v with
    | some b => .ok { i with options := set b i.options }
    | none => .error (.notBoolean name v)

/-- The flag with a name. A name for help asks for the usage. -/
def findFlag (name : Text) : Except FlagError Flag :=
  match flags.find? fun f => utf8 f.name == name with
  | some f => .ok f
  | none => if name = utf8 "help" || name = utf8 "h" then .error .help else .error (.undefined name)

/-- A flag that has been read and awaits what the next argument brings, if anything. -/
inductive Next where
  | nothing
  | value (set : Text → Invocation → Invocation) (name : Text)

/-- Reads one flag. -/
def readFlag (text : Text) (i : Invocation) : Except FlagError (Invocation × Next) :=
  let (name, value) := splitValue text
  match findFlag name with
  | .error e => .error e
  | .ok f =>
    match f.setter, value with
    | .switch set, value => (setSwitch set name value i).map fun i => (i, .nothing)
    | .text set, some v => .ok (set v i, .nothing)
    | .text set, none => .ok (i, .value set name)

/-- Reads arguments; a flag without its value takes the first of them. -/
def readFlags : Next → List Text → Invocation → Except FlagError Invocation
  | .nothing, [], i => .ok i
  | .value _ name, [], _ => .error (.missingValue name)
  | .value set _, argument :: rest, i => readFlags .nothing rest (set argument i)
  | .nothing, argument :: rest, i =>
    match flagName? argument with
    | .error e => .error e
    | .ok none => .ok i
    | .ok (some text) =>
      match readFlag text i with
      | .error e => .error e
      | .ok (i, next) => readFlags next rest i

/-- What the arguments ask for, with the path of the settings where none is given. -/
def invocation (defaultConfig : Text) (arguments : List Text) : Except FlagError Invocation :=
  readFlags .nothing arguments ⟨[], defaultConfig, .none⟩

/-- The lines about a flag. A name of one letter shares the line with its text, unless the flag takes a value. -/
def flagUsage (defaultConfig : Text) (f : Flag) : Text :=
  let isText :=
    match f.setter with
    | .text _ => true
    | .switch _ => false
  let gap := if f.name.length = 1 && !isText then utf8 "\t" else utf8 "\n    \t"
  let default :=
    if f.name == "config" then utf8 " (default " ++ Text.quoted defaultConfig ++ utf8 ")" else []
  utf8 "  -" ++ utf8 f.name ++ (if isText then utf8 " string" else []) ++ gap ++ utf8 f.usage ++ default ++ [10]

/-- The usage text. -/
def usage (defaultConfig : Text) : Text :=
  utf8 "Usage of ebpl:\n" ++ flags.flatMap (flagUsage defaultConfig)

/-- Where the command finds its settings and its history when it is not told. -/
structure Home where
  config : Text
  history : Text
  deriving DecidableEq, Repr

/-- What the command leaves: what it wrote, its exit status, and the machine. -/
structure Result where
  written : Written
  status : Nat
  machine : Machine

/-- The answer to wrong flags or to a call for help. -/
def refuse (home : Home) (e : FlagError) : Written × Nat :=
  match e.message? with
  | none => (.stderr (usage home.config), 0)
  | some line => (.stderr (line ++ [10] ++ usage home.config), 2)

/-- What is written and the status at the end, for an error if there is one. -/
def ending (message : Option Text) : Written × Nat :=
  match message with
  | none => (.nothing, 0)
  | some line => (.stderr (line ++ [10]), 1)

/-- Runs the command. Without an input file it opens the prompt. -/
def run (home : Home) (clock : Clock) (machine : Machine) (arguments : List Text) (input : Text) : Result :=
  match invocation home.config arguments with
  | .error e =>
    let (written, status) := refuse home e
    ⟨written, status, machine⟩
  | .ok i =>
    let (config, error) := Config.load i.config (machine.files.read i.config) (Config.default home.history)
    match error with
    | some e =>
      let (written, status) := ending (some e.message)
      ⟨written, status, machine⟩
    | none =>
      let session := Session.new config i.options clock
      if i.input.isEmpty then
        let (machine, written) := Prompt.dialogue session machine input
        ⟨written, 0, machine⟩
      else
        let step := session.runFile machine i.input
        let (report, status) := ending (step.error.map SessionError.message)
        ⟨step.written ++ report, status, step.machine⟩

end CommandLine

end EnglishScript
