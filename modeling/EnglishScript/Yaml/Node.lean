import EnglishScript.Yaml.Token

namespace EnglishScript.Yaml

/-- A node of a document. Lines are counted from one. -/
inductive Node where
  | scalar (line : Nat) (style : Style) (text : Text)
  | sequence (line : Nat) (items : List Node)
  | mapping (line : Nat) (entries : List (Node × Node))
  deriving Repr

namespace Node

/-- The line that a node starts on. -/
def line : Node → Nat
  | scalar line _ _ => line
  | sequence line _ => line
  | mapping line _ => line

/-- The scalar that stands where nothing is written. -/
def absent (line : Nat) : Node :=
  scalar (line + 1) .plain []

instance : Inhabited Node := ⟨absent 0⟩

end Node

namespace Document

/-- A computation on the tokens ahead. -/
abbrev Reader (α : Type) : Type := StateT (List Token) (Except Flaw) α

/-- The next token. The tokens two places ahead are read before it is looked at, so an error there comes first. -/
def peek (flaw : Option Flaw) : Reader Token := fun ts =>
  match flaw, ts with
  | some e, [] | some e, [_] | some e, [_, _] => .error e
  | _, t :: _ => .ok (t, ts)
  | none, [] => .ok (⟨.streamEnd, 0⟩, ts)

/-- Goes to the token behind the next one, and looks at that. -/
def advance (flaw : Option Flaw) : Reader Token := do
  modify (List.drop 1)
  peek flaw

/-- The error at a token, inside a construct that starts on a line. -/
def refuse {α : Type} (contextLine : Nat) (t : Token) (problem : String) : Reader α :=
  throw ⟨.nodes, contextLine, t.line, utf8 problem⟩

/-- How a node may be written: also as a block, or also as a list that is not indented. -/
inductive Place where
  | flow
  | block
  | blockOrEntries
  deriving DecidableEq, Repr

/-- How many tokens are ahead, which bounds every loop over them. -/
def ahead : Reader Nat := do
  return (← get).length

section

variable (flaw : Option Flaw) (node : Place → Reader Node)

/-- A node, or nothing written where one of the given tokens comes next. -/
def nodeUnless (place : Place) (line : Nat) (stops : List Token.Kind) : Reader Node := do
  let t ← peek flaw
  if stops.contains t.kind then return Node.absent line else node place

/-- The items of an indented list. -/
def blockItems (line : Nat) : Nat → List Node → Reader (List Node)
  | 0, items => return items
  | fuel + 1, items => do
    let t ← peek flaw
    if t.kind = .blockEntry then
      let _ ← advance flaw
      let item ← nodeUnless flaw node .block t.line [.blockEntry, .blockEnd]
      blockItems line fuel (items ++ [item])
    else if t.kind = .blockEnd then
      let _ ← modify (List.drop 1)
      return items
    else refuse line t "did not find expected '-' indicator"

/-- The items of a list at the indentation of its key. -/
def entryItems : Nat → List Node → Reader (List Node)
  | 0, items => return items
  | fuel + 1, items => do
    let t ← peek flaw
    if t.kind = .blockEntry then
      let _ ← advance flaw
      let item ← nodeUnless flaw node .block t.line [.blockEntry, .key, .value, .blockEnd]
      entryItems fuel (items ++ [item])
    else return items

/-- The value of an entry of a block mapping. -/
def blockValue : Reader Node := do
  let t ← peek flaw
  if t.kind = .value then
    let _ ← advance flaw
    nodeUnless flaw node .blockOrEntries t.line [.key, .value, .blockEnd]
  else return Node.absent t.line

/-- The entries of a block mapping. -/
def blockEntries (line : Nat) : Nat → List (Node × Node) → Reader (List (Node × Node))
  | 0, entries => return entries
  | fuel + 1, entries => do
    let t ← peek flaw
    if t.kind = .key then
      let _ ← advance flaw
      let key ← nodeUnless flaw node .blockOrEntries t.line [.key, .value, .blockEnd]
      let value ← blockValue flaw node
      blockEntries line fuel (entries ++ [(key, value)])
    else if t.kind = .blockEnd then
      let _ ← modify (List.drop 1)
      return entries
    else refuse line t "did not find expected key"

/-- The value behind a key between brackets that `stop` closes. -/
def flowValue (stop : Token.Kind) : Reader Node := do
  let t ← peek flaw
  if t.kind = .value then
    let t ← advance flaw
    nodeUnless flaw node .flow t.line [.flowEntry, stop]
  else return Node.absent t.line

/-- One item of a list between brackets; a key makes it a mapping with one entry. -/
def flowItem (t : Token) : Reader Node := do
  if t.kind = .key then
    let t ← advance flaw
    let key ←
      if [Token.Kind.value, .flowEntry, .flowSequenceEnd].contains t.kind then
        let _ ← modify (List.drop 1)
        pure (Node.absent t.line)
      else node .flow
    let value ← flowValue flaw node .flowSequenceEnd
    return .mapping (t.line + 1) [(key, value)]
  else node .flow

/-- The items of a list between brackets. -/
def flowItems (line : Nat) : Nat → List Node → Reader (List Node)
  | 0, items => return items
  | fuel + 1, items => do
    let t ← peek flaw
    if t.kind = .flowSequenceEnd then
      let _ ← modify (List.drop 1)
      return items
    else
      let t ←
        if items.isEmpty then pure t
        else if t.kind = .flowEntry then advance flaw
        else refuse line t "did not find expected ',' or ']'"
      if t.kind = .flowSequenceEnd then
        let _ ← modify (List.drop 1)
        return items
      else
        let item ← flowItem flaw node t
        flowItems line fuel (items ++ [item])

/-- One entry of a mapping between brackets. -/
def flowPair (t : Token) : Reader (Node × Node) := do
  if t.kind = .key then
    let t ← advance flaw
    let key ← nodeUnless flaw node .flow t.line [.value, .flowEntry, .flowMappingEnd]
    let value ← flowValue flaw node .flowMappingEnd
    return (key, value)
  else
    let key ← node .flow
    let t ← peek flaw
    return (key, Node.absent t.line)

/-- The entries of a mapping between brackets. -/
def flowPairs (line : Nat) : Nat → List (Node × Node) → Reader (List (Node × Node))
  | 0, entries => return entries
  | fuel + 1, entries => do
    let t ← peek flaw
    if t.kind = .flowMappingEnd then
      let _ ← modify (List.drop 1)
      return entries
    else
      let t ←
        if entries.isEmpty then pure t
        else if t.kind = .flowEntry then advance flaw
        else refuse line t "did not find expected ',' or '\x7d'"
      if t.kind = .flowMappingEnd then
        let _ ← modify (List.drop 1)
        return entries
      else
        let entry ← flowPair flaw node t
        flowPairs line fuel (entries ++ [entry])

end

/-- A node, at most `fuel` collections deep. -/
def node (flaw : Option Flaw) : Nat → Place → Reader Node
  | 0, _ => do
    let t ← peek flaw
    refuse t.line t "exceeded max depth"
  | fuel + 1, place => do
    let t ← peek flaw
    let count ← ahead
    let inside := node flaw fuel
    match t.kind with
    | .scalar style text =>
      let _ ← modify (List.drop 1)
      return .scalar (t.line + 1) style text
    | .flowSequence =>
      let _ ← advance flaw
      return .sequence (t.line + 1) (← flowItems flaw inside t.line count [])
    | .flowMapping =>
      let _ ← advance flaw
      return .mapping (t.line + 1) (← flowPairs flaw inside t.line count [])
    | .blockSequence =>
      if place = .flow then refuse t.line t "did not find expected node content"
      else
        let _ ← advance flaw
        return .sequence (t.line + 1) (← blockItems flaw inside t.line count [])
    | .blockMapping =>
      if place = .flow then refuse t.line t "did not find expected node content"
      else
        let _ ← advance flaw
        return .mapping (t.line + 1) (← blockEntries flaw inside t.line count [])
    | .blockEntry =>
      if place = .blockOrEntries then return .sequence (t.line + 1) (← entryItems flaw inside count [])
      else refuse t.line t "did not find expected node content"
    | _ => refuse t.line t "did not find expected node content"

/-- The first document among tokens, if there is one. -/
def first (flaw : Option Flaw) : Reader (Option Node) := do
  let t ← peek flaw
  let count ← ahead
  match t.kind with
  | .streamEnd => return none
  | .documentStart =>
    let t ← advance flaw
    let content ←
      if [Token.Kind.documentStart, .documentEnd, .streamEnd].contains t.kind then pure (Node.absent t.line)
      else node flaw (count + 1) .block
    let _ ← peek flaw
    return some content
  | _ =>
    let content ← node flaw (count + 1) .block
    let _ ← peek flaw
    return some content

/-- The first document of a text; a text without content has none. -/
def read (text : Text) : Except Flaw (Option Node) :=
  match characters text with
  | .error e => .error e
  | .ok cs =>
    let (ts, flaw) := tokens cs
    (first flaw ts).map Prod.fst

end Document

end EnglishScript.Yaml
