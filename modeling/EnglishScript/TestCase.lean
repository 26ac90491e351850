import EnglishScript.Yaml.Decode

namespace EnglishScript

/-- A test case. -/
structure TestCase where
  label : Text
  enabled : Bool
  input : Text
  expected : List (Text × Text)
  deriving DecidableEq, Repr

namespace TestCase

/-- A case without content. -/
def blank : TestCase := ⟨[], false, [], []⟩

/-- The named texts of a mapping; nothing written stands for an empty text. -/
def expectations (n : Yaml.Node) : Yaml.Decoded (List (Text × Text)) :=
  match n with
  | .mapping _ entries =>
    let (complaints, pairs) :=
      n.asRecord "map[string]string"
        (fun name value pairs =>
          let text := value.asText
          (text.complaints,
            match text.value? with
            | some t => pairs ++ [(name, t)]
            | none => if value.isNull then pairs ++ [(name, [])] else pairs))
        []
    ⟨complaints, if (Yaml.Node.repeatedKeys entries).isEmpty then some pairs else none⟩
  | _ => if n.isNull then .ok [] else n.mismatch "map[string]string"

/-- Changes the part of a case with a name; other names are ignored. -/
def assign (name : Text) (n : Yaml.Node) (c : TestCase) : List Text × TestCase :=
  if name = utf8 "label" then Yaml.setField n.asText (fun v c => { c with label := v }) c
  else if name = utf8 "enable" then Yaml.setField n.asBool (fun v c => { c with enabled := v }) c
  else if name = utf8 "input" then Yaml.setField n.asText (fun v c => { c with input := v }) c
  else if name = utf8 "expected" then Yaml.setField (expectations n) (fun v c => { c with expected := v }) c
  else ([], c)

/-- The cases of a table, enabled or not. -/
def ofNode (n : Yaml.Node) : List Text × List TestCase :=
  match n with
  | .sequence _ items =>
    let read := items.map fun item => (item, item.asRecord "TestCase" assign blank)
    (read.flatMap fun r => r.2.1, (read.filter fun r => !r.1.isNull).map fun r => r.2.2)
  | _ => if n.isNull then ([], []) else ([n.complaint "[]TestCase"], [])

/-- The enabled cases of a table. -/
def table (text : Text) : Except Yaml.Refusal (List TestCase) :=
  match Yaml.Document.read text with
  | .error f => .error (.flaw f)
  | .ok none => .ok []
  | .ok (some n) =>
    let (complaints, cases) := ofNode n
    if complaints.isEmpty then .ok (cases.filter TestCase.enabled) else .error (.complaints complaints)

end TestCase

end EnglishScript
