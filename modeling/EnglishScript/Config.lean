import EnglishScript.FileTree
import EnglishScript.Run.Evaluator
import EnglishScript.Yaml.Decode

namespace EnglishScript

/-- The settings. The timeout is in nanoseconds. -/
structure Config where
  interpreters : List Text
  timeout : Int
  verify : Bool
  maxSteps : Int
  historyFile : Text
  tempDir : Text
  deriving DecidableEq, Repr

/-- Why settings are not valid. -/
inductive ConfigFault where
  | noInterpreters
  | timeoutNotPositive
  | maxStepsNotPositive
  deriving DecidableEq, Repr

namespace ConfigFault

/-- The key of the wrong setting. -/
def key : ConfigFault → Text
  | noInterpreters => utf8 "interpreters"
  | timeoutNotPositive => utf8 "timeout"
  | maxStepsNotPositive => utf8 "max_steps"

/-- What is wrong with it. -/
def reason : ConfigFault → Text
  | noInterpreters => utf8 "at least one interpreter is required"
  | timeoutNotPositive | maxStepsNotPositive => utf8 "must be positive"

/-- The message of the fault. -/
def message (f : ConfigFault) : Text :=
  utf8 "invalid " ++ f.key ++ utf8 ": " ++ f.reason

end ConfigFault

/-- Why settings cannot be read. -/
inductive ConfigError where
  | refused (r : Yaml.Refusal)
  | invalid (f : ConfigFault)
  | unreadable (reason : Text)
  | inFile (path : Text) (e : ConfigError)
  deriving DecidableEq, Repr

/-- The message of the error. -/
def ConfigError.message : ConfigError → Text
  | refused r => r.message
  | invalid f => f.message
  | unreadable reason => reason
  | inFile path e => path ++ utf8 ": " ++ e.message

namespace Config

/-- The settings without a file, with the place of the history. -/
def default (historyFile : Text) : Config :=
  { interpreters := [utf8 "python", utf8 "python3"]
    timeout := 10000000000
    verify := false
    maxSteps := Evaluator.defaultMaxSteps
    historyFile
    tempDir := [] }

/-- The first fault of the settings. -/
def fault? (c : Config) : Option ConfigFault :=
  if c.interpreters.isEmpty then some .noInterpreters
  else if c.timeout ≤ 0 then some .timeoutNotPositive
  else if c.maxSteps ≤ 0 then some .maxStepsNotPositive
  else none

/-- Changes the setting with a name; other names are ignored. -/
def assign (name : Text) (n : Yaml.Node) (c : Config) : List Text × Config :=
  if name = utf8 "interpreters" then Yaml.setField n.asTexts (fun v c => { c with interpreters := v }) c
  else if name = utf8 "timeout" then Yaml.setField n.asDuration (fun v c => { c with timeout := v }) c
  else if name = utf8 "verify" then Yaml.setField n.asBool (fun v c => { c with verify := v }) c
  else if name = utf8 "max_steps" then Yaml.setField n.asInt (fun v c => { c with maxSteps := v }) c
  else if name = utf8 "history_file" then Yaml.setField n.asText (fun v c => { c with historyFile := v }) c
  else if name = utf8 "temp_dir" then Yaml.setField n.asText (fun v c => { c with tempDir := v }) c
  else ([], c)

/-- Reads a document over settings: the settings as they then stand, and what is wrong. Validity is looked at only if
the document is in order. -/
def parse (text : Text) (c : Config) : Config × Option ConfigError :=
  match Yaml.Document.read text with
  | .error f => (c, some (.refused (.flaw f)))
  | .ok node? =>
    let (complaints, c) :=
      match node? with
      | some n => n.asRecord "config.Config" assign c
      | none => ([], c)
    if !complaints.isEmpty then (c, some (.refused (.complaints complaints)))
    else (c, c.fault?.map .invalid)

/-- Reads settings from what is found at a path; a missing file gives the defaults. -/
def load (path : Text) (found : Except PathFault Text) (defaults : Config) : Config × Option ConfigError :=
  match found with
  | .error .noSuchFile => (defaults, none)
  | .error f => (defaults, some (.unreadable (FileTree.readMessage path f)))
  | .ok content =>
    let (c, e?) := parse content defaults
    (c, e?.map (.inFile path))

end Config

end EnglishScript
