import EnglishScript.Yaml.Scalar

namespace EnglishScript.Yaml

/-- What a token is. -/
inductive Token.Kind where
  | streamEnd
  | documentStart
  | documentEnd
  | blockSequence
  | blockMapping
  | blockEnd
  | flowSequence
  | flowSequenceEnd
  | flowMapping
  | flowMappingEnd
  | blockEntry
  | flowEntry
  | key
  | value
  | scalar (style : Style) (text : Text)
  deriving DecidableEq, Repr

/-- A token and the line that it starts on. -/
structure Token where
  kind : Token.Kind
  line : Nat
  deriving DecidableEq, Repr

/-- A token that is a key if a colon follows: where it stands, how many tokens are before it, and whether nothing but a
key may stand there. -/
structure Candidate where
  required : Bool
  position : Nat
  mark : Mark
  deriving DecidableEq, Repr

/-- The state of reading tokens: the open indentations, whether a key may start here, and for each open bracket, the
innermost first, the candidate for a key. -/
structure Scan where
  cursor : Cursor
  indent : Int
  outer : List Int
  keyAllowed : Bool
  candidate : Option Candidate
  outerCandidates : List (Option Candidate)
  tokens : List Token
  deriving Repr

namespace Scan

/-- The state at the beginning of a text. -/
def start (cs : List Char) : Scan :=
  ⟨Cursor.start cs, -1, [], true, none, [], []⟩

/-- Whether the place is inside brackets. -/
def inFlow (s : Scan) : Bool :=
  !s.outerCandidates.isEmpty

/-- The error at this place. -/
def refuse (s : Scan) (context : Mark) (problem : String) : Flaw :=
  ⟨.tokens, context.line, s.cursor.mark.line, utf8 problem⟩

/-- Adds a token of `width` characters and goes behind it. -/
def emit (s : Scan) (kind : Token.Kind) (width : Nat) : Scan :=
  { s with tokens := s.tokens ++ [⟨kind, s.cursor.mark.line⟩], cursor := s.cursor.skip width }

/-- Says whether a key may start at this place. -/
def allowKey (s : Scan) (allowed : Bool) : Scan :=
  { s with keyAllowed := allowed }

/-- The block collections deeper than a column, as the number of them, and the indentations that stay open. -/
def deeper (column : Int) : Int → List Int → Nat × Int × List Int
  | indent, [] => (0, indent, [])
  | indent, next :: rest =>
    if column < indent then
      let (n, i, o) := deeper column next rest
      (n + 1, i, o)
    else (0, indent, next :: rest)

/-- Ends the block collections that are deeper than a column. -/
def unindent (s : Scan) (column : Int) : Scan :=
  if s.inFlow then s
  else
    let (n, indent, outer) := deeper column s.indent s.outer
    { s with indent, outer, tokens := s.tokens ++ List.replicate n ⟨.blockEnd, s.cursor.mark.line⟩ }

/-- Starts a block collection at a column deeper than the present one; its token comes before the token with the given
number. -/
def indentTo (s : Scan) (column : Nat) (position : Nat) (kind : Token.Kind) (line : Nat) : Scan :=
  if s.inFlow || (column : Int) ≤ s.indent then s
  else
    { s with
      indent := column
      outer := s.indent :: s.outer
      tokens := s.tokens.take position ++ [⟨kind, line⟩] ++ s.tokens.drop position }

/-- Gives the candidate up; a required one is then missing its colon. -/
def dropCandidate (s : Scan) : Except Flaw Scan :=
  match s.candidate with
  | some k =>
    if k.required then .error (s.refuse k.mark "could not find expected ':'") else .ok { s with candidate := none }
  | none => .ok s

/-- Remembers the token that starts here as a candidate, where a key is allowed. -/
def saveCandidate (s : Scan) : Except Flaw Scan :=
  if s.keyAllowed then
    (s.dropCandidate).map fun (s : Scan) =>
      { s with
        candidate := some
          { required := !s.inFlow && s.indent == (s.cursor.mark.column : Int)
            position := s.tokens.length
            mark := s.cursor.mark } }
  else .ok s

/-- The candidate if it can still be a key at this place: on the same line and not too far back. -/
def validCandidate (s : Scan) : Except Flaw (Option Candidate) :=
  match s.candidate with
  | none => .ok none
  | some k =>
    if k.mark.line < s.cursor.mark.line || k.mark.index + 1024 < s.cursor.mark.index then
      if k.required then .error (s.refuse k.mark "could not find expected ':'") else .ok none
    else .ok (some k)

/-- Goes over blanks, comments and line ends. Tabs count as blanks only where no key may start. -/
def skipSpace : Nat → Scan → Scan
  | 0, s => s
  | fuel + 1, s =>
    let blanks := s.cursor.rest.takeWhile fun c => c == ' ' || ((s.inFlow || !s.keyAllowed) && c == '\t')
    let c := s.cursor.skip blanks.length
    let c := if c.is 0 '#' then c.skip (c.rest.takeWhile fun x => !isBreak x).length else c
    if c.atBreak then
      skipSpace fuel { s with cursor := c.takeBreak.1, keyAllowed := s.keyAllowed || !s.inFlow }
    else { s with cursor := c }

/-- The end of the text. It stands at the beginning of a line. -/
def endStream (s : Scan) : Except Flaw Scan :=
  let mark := s.cursor.mark
  let mark := if mark.column = 0 then mark else ⟨mark.index, mark.line + 1, 0⟩
  (({ s with cursor := ⟨[], mark⟩ }).unindent (-1)).dropCandidate.map fun (s : Scan) =>
    (s.allowKey false).emit .streamEnd 0

/-- A document indicator. -/
def documentMark (s : Scan) (kind : Token.Kind) : Except Flaw Scan :=
  (s.unindent (-1)).dropCandidate.map fun (s : Scan) => (s.allowKey false).emit kind 3

/-- An opening bracket. -/
def openFlow (s : Scan) (kind : Token.Kind) : Except Flaw Scan :=
  s.saveCandidate.map fun (s : Scan) =>
    let inner : Scan := { s with candidate := none, outerCandidates := s.candidate :: s.outerCandidates }
    (inner.allowKey true).emit kind 1

/-- A closing bracket. -/
def closeFlow (s : Scan) (kind : Token.Kind) : Except Flaw Scan :=
  s.dropCandidate.map fun (s : Scan) =>
    let s : Scan :=
      match s.outerCandidates with
      | k :: rest => { s with candidate := k, outerCandidates := rest }
      | [] => s
    (s.allowKey false).emit kind 1

/-- A comma between brackets. -/
def flowEntry (s : Scan) : Except Flaw Scan :=
  s.dropCandidate.map fun (s : Scan) => (s.allowKey true).emit .flowEntry 1

/-- The dash of a list item. -/
def blockEntry (s : Scan) : Except Flaw Scan :=
  if !s.inFlow && !s.keyAllowed then
    .error (s.refuse s.cursor.mark "block sequence entries are not allowed in this context")
  else
    (s.indentTo s.cursor.mark.column s.tokens.length .blockSequence s.cursor.mark.line).dropCandidate.map fun (s : Scan) =>
      (s.allowKey true).emit .blockEntry 1

/-- The question mark before a key. -/
def explicitKey (s : Scan) : Except Flaw Scan :=
  if !s.inFlow && !s.keyAllowed then
    .error (s.refuse s.cursor.mark "mapping keys are not allowed in this context")
  else
    (s.indentTo s.cursor.mark.column s.tokens.length .blockMapping s.cursor.mark.line).dropCandidate.map fun (s : Scan) =>
      (s.allowKey (!s.inFlow)).emit .key 1

/-- The colon before a value. Behind a candidate it makes that the key. -/
def value (s : Scan) : Except Flaw Scan :=
  match s.validCandidate with
  | .error e => .error e
  | .ok (some k) =>
    let tokens := s.tokens.take k.position ++ [⟨.key, k.mark.line⟩] ++ s.tokens.drop k.position
    let s := ({ s with tokens }).indentTo k.mark.column k.position .blockMapping k.mark.line
    .ok ((({ s with candidate := none }).allowKey false).emit .value 1)
  | .ok none =>
    let s := { s with candidate := none }
    if s.inFlow then .ok ((s.allowKey false).emit .value 1)
    else if !s.keyAllowed then .error (s.refuse s.cursor.mark "mapping values are not allowed in this context")
    else
      let s := s.indentTo s.cursor.mark.column s.tokens.length .blockMapping s.cursor.mark.line
      .ok ((s.allowKey true).emit .value 1)

/-- Adds a scalar that started at `line` and goes to the place behind it. -/
def addScalar (s : Scan) (line : Nat) (style : Style) (text : List Char) (after : Cursor) : Scan :=
  { s with tokens := s.tokens ++ [⟨.scalar style (Text.ofChars text), line⟩], cursor := after }

/-- A scalar behind `|` or `>`. -/
def blockScalar (s : Scan) (literal : Bool) : Except Flaw Scan :=
  match s.dropCandidate with
  | .error e => .error e
  | .ok s =>
    (Scalar.block s.cursor.mark literal s.indent (s.cursor.skip 1)).map fun (after, text) =>
      (s.allowKey true).addScalar s.cursor.mark.line .block text after

/-- A quoted scalar. -/
def quotedScalar (s : Scan) (single : Bool) : Except Flaw Scan :=
  match s.saveCandidate with
  | .error e => .error e
  | .ok s =>
    (Scalar.quoted s.cursor.mark single s.cursor.rest.length (s.cursor.skip 1) []).map fun (after, text) =>
      (s.allowKey false).addScalar s.cursor.mark.line .quoted text after

/-- A plain scalar. Behind a line end a key may start again. -/
def plainScalar (s : Scan) : Except Flaw Scan :=
  match s.saveCandidate with
  | .error e => .error e
  | .ok s =>
    let indent := (s.indent + 1).toNat
    (Scalar.plain s.cursor.mark s.inFlow indent (s.cursor.rest.length + 1) s.cursor Scalar.Space.none []).map
      fun (after, text, ended) => (s.allowKey ended).addScalar s.cursor.mark.line .plain text after

/-- Whether a plain scalar may start here. -/
def startsPlain (s : Scan) : Bool :=
  match s.cursor.rest with
  | [] => false
  | c :: _ =>
    if c = '-' then
      match s.cursor.at? 1 with
      | some x => !isBlank x
      | none => true
    else if c = '?' || c = ':' then !s.inFlow && !s.cursor.isGap 1
    else
      !(isBlank c || isBreak c
        || [',', '[', ']', '\x7b', '\x7d', '#', '&', '*', '!', '|', '>', '\'', '"', '%', '@', '\x60'].contains c)

/-- Reads the next token. -/
def step (s : Scan) : Except Flaw Scan :=
  let s := s.skipSpace (s.cursor.rest.length + 1)
  let s := s.unindent s.cursor.mark.column
  let c := s.cursor
  if c.rest.isEmpty then s.endStream
  else if c.atIndicator '-' then s.documentMark .documentStart
  else if c.atIndicator '.' then s.documentMark .documentEnd
  else if c.is 0 '[' then s.openFlow .flowSequence
  else if c.is 0 '\x7b' then s.openFlow .flowMapping
  else if c.is 0 ']' then s.closeFlow .flowSequenceEnd
  else if c.is 0 '\x7d' then s.closeFlow .flowMappingEnd
  else if c.is 0 ',' then s.flowEntry
  else if c.is 0 '-' && c.isGap 1 then s.blockEntry
  else if c.is 0 '?' && (s.inFlow || c.isGap 1) then s.explicitKey
  else if c.is 0 ':' && (s.inFlow || c.isGap 1) then s.value
  else if c.is 0 '|' && !s.inFlow then s.blockScalar true
  else if c.is 0 '>' && !s.inFlow then s.blockScalar false
  else if c.is 0 '\'' then s.quotedScalar true
  else if c.is 0 '"' then s.quotedScalar false
  else if s.startsPlain then s.plainScalar
  else .error (s.refuse c.mark "found character that cannot start any token")

/-- Whether the end of the text has been reached. -/
def isDone (s : Scan) : Bool :=
  match s.tokens.getLast? with
  | some t => t.kind == .streamEnd
  | none => false

/-- Reads tokens to the end of the text or to the first error. -/
def run : Nat → Scan → List Token × Option Flaw
  | 0, s => (s.tokens, none)
  | fuel + 1, s =>
    match s.step with
    | .error e => (s.tokens, some e)
    | .ok next => if next.isDone then (next.tokens, none) else run fuel next

end Scan

/-- The tokens of a text up to its end or to the first error. -/
def tokens (cs : List Char) : List Token × Option Flaw :=
  (Scan.start cs).run (cs.length + 2)

end EnglishScript.Yaml
