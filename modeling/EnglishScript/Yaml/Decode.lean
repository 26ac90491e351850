import EnglishScript.Duration
import EnglishScript.Text.Quoted
import EnglishScript.Yaml.Value

namespace EnglishScript.Yaml

/-- What reading a node gave: the complaints, and the value if there is one. -/
structure Decoded (α : Type) where
  complaints : List Text
  value? : Option α

/-- Why a document is refused. -/
inductive Refusal where
  | flaw (f : Flaw)
  | complaints (lines : List Text)
  deriving DecidableEq, Repr

/-- The message of a refusal. -/
def Refusal.message : Refusal → Text
  | .flaw f => f.message
  | .complaints lines => utf8 "yaml: unmarshal errors:\n  " ++ Text.join (utf8 "\n  ") lines

namespace Decoded

/-- A value without complaints. -/
def ok {α : Type} (a : α) : Decoded α := ⟨[], some a⟩

/-- No value and no complaint. -/
def nothing {α : Type} : Decoded α := ⟨[], none⟩

end Decoded

namespace Node

/-- The value of a scalar. -/
def value? : Node → Option Value
  | scalar _ style text => some (Value.ofScalar style text)
  | _ => none

/-- Whether a node stands for nothing. -/
def isNull (n : Node) : Bool :=
  n.value? == some .null

/-- The first bytes of a text between backticks. -/
def excerpt (t : Text) : Text :=
  [96] ++ (if 10 < t.length then t.take 7 ++ utf8 "..." else t) ++ [96]

/-- What a node is, for a complaint. -/
def sketch : Node → Text
  | scalar _ style text => (Value.ofScalar style text).tag ++ [32] ++ excerpt text
  | sequence _ _ => utf8 "!!seq"
  | mapping _ _ => utf8 "!!map"

/-- The complaint that a node is not of a type. -/
def complaint (n : Node) (type : String) : Text :=
  utf8 "line " ++ Text.ofNat n.line ++ utf8 ": cannot unmarshal " ++ n.sketch ++ utf8 " into " ++ utf8 type

/-- No value, for a node that is not of a type. -/
def mismatch {α : Type} (n : Node) (type : String) : Decoded α :=
  ⟨[n.complaint type], none⟩

/-- A text: that of any scalar which stands for something. -/
def asText (n : Node) : Decoded Text :=
  match n with
  | scalar _ _ text => if n.isNull then .nothing else .ok text
  | _ => n.mismatch "string"

/-- A truth value; the words for yes and no are taken too. -/
def asBool (n : Node) : Decoded Bool :=
  match n.value? with
  | some .null => .nothing
  | some (.bool b) => .ok b
  | some (.str t) =>
    if ["y", "Y", "yes", "Yes", "YES", "on", "On", "ON"].any (utf8 · == t) then .ok true
    else if ["n", "N", "no", "No", "NO", "off", "Off", "OFF"].any (utf8 · == t) then .ok false
    else n.mismatch "bool"
  | _ => n.mismatch "bool"

/-- A whole number of 64 bits; another number is cut to one. -/
def asInt (n : Node) : Decoded Int :=
  match n.value? with
  | some .null => .nothing
  | some (.int i) => if i < Nat.pow 2 63 then .ok i else n.mismatch "int"
  | some (.float f) =>
    match Value.truncated? f with
    | some i => .ok i
    | none => n.mismatch "int"
  | _ => n.mismatch "int"

/-- A span of time in nanoseconds. -/
def asDuration (n : Node) : Decoded Int :=
  match n.value? with
  | some .null => .nothing
  | some (.str t) =>
    match Duration.ofText? t with
    | some d => .ok d
    | none => n.mismatch "time.Duration"
  | _ => n.mismatch "time.Duration"

/-- A list of texts without the items that stand for nothing or are of another type. -/
def asTexts (n : Node) : Decoded (List Text) :=
  match n with
  | sequence _ items =>
    let read := items.map asText
    ⟨read.flatMap Decoded.complaints, some (read.filterMap Decoded.value?)⟩
  | _ => if n.isNull then .ok [] else n.mismatch "[]string"

/-- What two keys must share to be the same key. -/
def keyText : Node → Nat × Text
  | scalar _ _ text => (0, text)
  | sequence _ _ => (1, [])
  | mapping _ _ => (2, [])

/-- The complaints about keys that are given twice. -/
def repeatedKeys : List (Node × Node) → List Text
  | [] => []
  | (key, _) :: rest =>
    (rest.filter fun e => e.1.keyText == key.keyText).map (fun e =>
      utf8 "line " ++ Text.ofNat e.1.line ++ utf8 ": mapping key " ++ Text.quoted e.1.keyText.2
        ++ utf8 " already defined at line " ++ Text.ofNat key.line)
      ++ repeatedKeys rest

/-- Reads a record: each entry with a known key changes it. A mapping with a repeated key changes nothing. -/
def asRecord {α : Type} (type : String) (assign : Text → Node → α → List Text × α) (n : Node) (a : α) :
    List Text × α :=
  match n with
  | mapping _ entries =>
    let repeated := repeatedKeys entries
    if !repeated.isEmpty then (repeated, a)
    else
      entries.foldl
        (fun (complaints, a) (key, value) =>
          match key.value?, key.asText with
          | some .merge, _ => (complaints, a)
          | _, ⟨more, none⟩ => (complaints ++ more, a)
          | _, ⟨_, some name⟩ =>
            let (more, a) := assign name value a
            (complaints ++ more, a))
        ([], a)
  | _ => if n.isNull then ([], a) else ([n.complaint type], a)

end Node

/-- Changes a field to what a node gives. -/
def setField {α β : Type} (d : Decoded β) (set : β → α → α) (a : α) : List Text × α :=
  (d.complaints,
    match d.value? with
    | some b => set b a
    | none => a)

end EnglishScript.Yaml
