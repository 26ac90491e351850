import EnglishScript.Yaml.Cursor

namespace EnglishScript.Yaml

/-- How a scalar is written. -/
inductive Style where
  | plain
  | quoted
  | block
  deriving DecidableEq, Repr

namespace Scalar

/-- White space inside a scalar: blanks before any line end, the first line end, and the others. -/
structure Space where
  blanks : List Char
  first : List Char
  others : List Char
  deriving DecidableEq, Repr

namespace Space

/-- No white space. -/
def none : Space := ⟨[], [], []⟩

/-- Whether there is a line end. -/
def hasBreak (s : Space) : Bool :=
  !s.first.isEmpty

/-- What the white space stands for in the scalar. -/
def folded (s : Space) : List Char :=
  match s.first with
  | [] => s.blanks
  | c :: _ => if c = '\n' then (if s.others.isEmpty then [' '] else s.others) else s.first ++ s.others

end Space

/-- Reads white space. Behind a line end, blanks are dropped; a tab before column `indent` is an error there if a
context for it is given. -/
def space (context : Option (Mark × Nat)) : Nat → Cursor → Space → Except Flaw (Cursor × Space)
  | 0, c, s => .ok (c, s)
  | fuel + 1, c, s =>
    if c.atBlank then
      match context with
      | some (mark, indent) =>
        if s.hasBreak && c.mark.column < indent && c.is 0 '\t' then
          .error ⟨.tokens, mark.line, c.mark.line, utf8 "found a tab character that violates indentation"⟩
        else next fuel c s
      | none => next fuel c s
    else if c.atBreak then
      let (after, stands) := c.takeBreak
      if s.hasBreak then space context fuel after { s with others := s.others ++ stands }
      else space context fuel after ⟨[], stands, []⟩
    else .ok (c, s)
where
  /-- Goes over one blank. -/
  next (fuel : Nat) (c : Cursor) (s : Space) : Except Flaw (Cursor × Space) :=
    if s.hasBreak then space context fuel (c.skip 1) s
    else space context fuel (c.skip 1) { s with blanks := s.blanks ++ c.rest.take 1 }

/-- The characters up to white space or to what ends a plain scalar. -/
def plainWord (inFlow : Bool) : List Char → List Char
  | [] => []
  | x :: rest =>
    let gapAhead :=
      match rest with
      | [] => true
      | y :: _ => isBlank y || isBreak y
    if isBlank x || isBreak x then []
    else if x = ':' && gapAhead then []
    else if inFlow && [',', '?', '[', ']', '\x7b', '\x7d'].contains x then []
    else x :: plainWord inFlow rest

/-- Reads a plain scalar: words with white space between them, as long as the lines are indented. The last part tells
whether it ended behind a line end. -/
def plain (start : Mark) (inFlow : Bool) (indent : Nat) :
    Nat → Cursor → Space → List Char → Except Flaw (Cursor × List Char × Bool)
  | 0, c, s, text => .ok (c, text, s.hasBreak)
  | fuel + 1, c, s, text =>
    if c.atDocumentMark || c.is 0 '#' then .ok (c, text, s.hasBreak)
    else
      let chars := plainWord inFlow c.rest
      let after := c.skip chars.length
      let text := if chars.isEmpty then text else text ++ s.folded ++ chars
      let s := if chars.isEmpty then s else Space.none
      if after.atBlank || after.atBreak then
        match space (some (start, indent)) after.rest.length after s with
        | .error e => .error e
        | .ok (after, s) =>
          if !inFlow && after.mark.column < indent then .ok (after, text, s.hasBreak)
          else plain start inFlow indent fuel after s text
      else .ok (after, text, s.hasBreak)

/-- The character of an escape of one letter. -/
def simpleEscape? : Char → Option Char
  | '0' => some (Char.ofNat 0)
  | 'a' => some (Char.ofNat 7)
  | 'b' => some (Char.ofNat 8)
  | 't' | '\t' => some '\t'
  | 'n' => some '\n'
  | 'v' => some (Char.ofNat 11)
  | 'f' => some (Char.ofNat 12)
  | 'r' => some '\r'
  | 'e' => some (Char.ofNat 27)
  | ' ' => some ' '
  | '"' => some '"'
  | '\'' => some '\''
  | '\\' => some '\\'
  | 'N' => some (Char.ofNat 0x85)
  | '_' => some (Char.ofNat 0xA0)
  | 'L' => some (Char.ofNat 0x2028)
  | 'P' => some (Char.ofNat 0x2029)
  | _ => none

/-- The number of digits of an escape by number. -/
def escapeWidth? : Char → Option Nat
  | 'x' => some 2
  | 'u' => some 4
  | 'U' => some 8
  | _ => none

/-- The value of a hexadecimal digit. -/
def hexDigit? (c : Char) : Option Nat :=
  if c.toNat < 128 then Text.hexDigit? c.toNat.toUInt8 else none

/-- An escape behind its backslash: the character, and the number of characters used. -/
def escape (cs : List Char) : Except Text (Char × Nat) :=
  match cs with
  | [] => .error (utf8 "found unknown escape character")
  | x :: rest =>
    match simpleEscape? x, escapeWidth? x with
    | some c, _ => .ok (c, 1)
    | none, some width =>
      let digits := rest.take width
      match digits.mapM hexDigit? with
      | some values =>
        if values.length < width then .error (utf8 "did not find expected hexdecimal number")
        else
          let n := values.foldl (fun n d => n * 16 + d) 0
          if n.isValidChar then .ok (Char.ofNat n, width + 1)
          else .error (utf8 "found invalid Unicode character escape code")
      | none => .error (utf8 "did not find expected hexdecimal number")
    | none, none => .error (utf8 "found unknown escape character")

/-- Reads a run without white space of a quoted scalar. The last part tells whether it ended at an escaped line end. -/
def quotedRun (start : Mark) (single : Bool) : Nat → Cursor → List Char → Except Flaw (Cursor × List Char × Bool)
  | 0, c, text => .ok (c, text, false)
  | fuel + 1, c, text =>
    if c.isGap 0 then .ok (c, text, false)
    else if single then
      if c.is 0 '\'' then
        if c.is 1 '\'' then quotedRun start single fuel (c.skip 2) (text ++ ['\'']) else .ok (c, text, false)
      else quotedRun start single fuel (c.skip 1) (text ++ c.rest.take 1)
    else if c.is 0 '"' then .ok (c, text, false)
    else if c.is 0 '\\' then
      if (c.skip 1).atBreak then .ok ((c.skip 1).takeBreak.1, text, true)
      else
        match escape (c.rest.drop 1) with
        | .ok (x, used) => quotedRun start single fuel (c.skip (used + 1)) (text ++ [x])
        | .error problem => .error ⟨.tokens, start.line, c.mark.line, problem⟩
    else quotedRun start single fuel (c.skip 1) (text ++ c.rest.take 1)

/-- Reads a quoted scalar behind its opening quote, up to and with the closing one. -/
def quoted (start : Mark) (single : Bool) : Nat → Cursor → List Char → Except Flaw (Cursor × List Char)
  | 0, c, _ => .error ⟨.tokens, start.line, c.mark.line, utf8 "found unexpected end of stream"⟩
  | fuel + 1, c, text =>
    if c.atDocumentMark then .error ⟨.tokens, start.line, c.mark.line, utf8 "found unexpected document indicator"⟩
    else if c.rest.isEmpty then .error ⟨.tokens, start.line, c.mark.line, utf8 "found unexpected end of stream"⟩
    else
      match quotedRun start single c.rest.length c text with
      | .error e => .error e
      | .ok (c, text, escapedBreak) =>
        if c.is 0 (if single then '\'' else '"') then .ok (c.skip 1, text)
        else if escapedBreak then
          match space none c.rest.length c ⟨[], [Char.ofNat 0], []⟩ with
          | .error e => .error e
          | .ok (c, s) => quoted start single fuel c (text ++ s.others)
        else
          match space none c.rest.length c Space.none with
          | .error e => .error e
          | .ok (c, s) => quoted start single fuel c (text ++ s.folded)

/-- What is done with the line ends behind a block scalar. -/
inductive Chomp where
  | strip
  | clip
  | keep
  deriving DecidableEq, Repr

/-- Goes over the indentation and the empty lines before a line of a block scalar. An `indent` of zero is not fixed yet;
the third part is the deepest column seen. -/
def emptyLines (start : Mark) (indent : Nat) :
    Nat → Cursor → List Char → Nat → Except Flaw (Cursor × List Char × Nat)
  | 0, c, breaks, deepest => .ok (c, breaks, deepest)
  | fuel + 1, c, breaks, deepest =>
    let spaces := c.rest.takeWhile (· == ' ')
    let count := if indent = 0 then spaces.length else min spaces.length (indent - c.mark.column)
    let c := c.skip count
    let deepest := max deepest c.mark.column
    if (indent = 0 || c.mark.column < indent) && c.is 0 '\t' then
      .error ⟨.tokens, start.line, c.mark.line, utf8 "found a tab character where an indentation space is expected"⟩
    else if c.atBreak then
      let (after, stands) := c.takeBreak
      emptyLines start indent fuel after (breaks ++ stands) deepest
    else .ok (c, breaks, deepest)

/-- The lines of a block scalar: the text before the last line end, that line end, and the empty lines behind it. -/
def blockLines (start : Mark) (literal : Bool) (indent : Nat) :
    Nat → Cursor → List Char → List Char → List Char → Bool →
      Except Flaw (Cursor × List Char × List Char × List Char)
  | 0, c, text, last, empty, _ => .ok (c, text, last, empty)
  | fuel + 1, c, text, last, empty, wasBlank =>
    if c.mark.column == indent && !c.rest.isEmpty then
      let isBlankLine := c.atBlank
      let joint :=
        if !literal && !wasBlank && !isBlankLine && last.head? == some '\n' then
          (if empty.isEmpty then [' '] else [])
        else last
      let chars := c.rest.takeWhile fun x => !isBreak x
      let (after, stands) := (c.skip chars.length).takeBreak
      match emptyLines start indent (after.rest.length + 1) after [] 0 with
      | .error e => .error e
      | .ok (after, breaks, _) =>
        blockLines start literal indent fuel after (text ++ joint ++ empty ++ chars) stands breaks isBlankLine
    else .ok (c, text, last, empty)

/-- The indicators behind `|` or `>`: how to treat the end, an indentation, and the number of characters used. -/
def blockHeader (cs : List Char) : Except Text (Chomp × Nat × Nat) :=
  let chomp? (c : Char) : Option Chomp := if c = '+' then some .keep else if c = '-' then some .strip else none
  let digit? (c : Char) : Option Nat := if c.isDigit then some (c.toNat - 48) else none
  let zero : Text := utf8 "found an indentation indicator equal to 0"
  match cs with
  | a :: rest =>
    match chomp? a, digit? a with
    | some chomp, _ =>
      match rest.head?.bind digit? with
      | some 0 => .error zero
      | some n => .ok (chomp, n, 2)
      | none => .ok (chomp, 0, 1)
    | none, some 0 => .error zero
    | none, some n =>
      match rest.head?.bind chomp? with
      | some chomp => .ok (chomp, n, 2)
      | none => .ok (.clip, n, 1)
    | none, none => .ok (.clip, 0, 0)
  | [] => .ok (.clip, 0, 0)

/-- Reads a block scalar behind its `|` or `>`; `parent` is the indentation around it. -/
def block (start : Mark) (literal : Bool) (parent : Int) (c : Cursor) : Except Flaw (Cursor × List Char) :=
  match blockHeader c.rest with
  | .error problem => .error ⟨.tokens, start.line, c.mark.line, problem⟩
  | .ok (chomp, increment, used) =>
    let c := c.skip used
    let c := c.skip (c.rest.takeWhile isBlank).length
    let c := if c.is 0 '#' then c.skip (c.rest.takeWhile fun x => !isBreak x).length else c
    if !c.rest.isEmpty && !c.atBreak then
      .error ⟨.tokens, start.line, c.mark.line, utf8 "did not find expected comment or line break"⟩
    else
      let c := c.takeBreak.1
      let given := if increment = 0 then 0 else (max parent 0).toNat + increment
      match emptyLines start given (c.rest.length + 1) c [] 0 with
      | .error e => .error e
      | .ok (c, breaks, deepest) =>
        let indent := if given = 0 then max deepest (max (parent + 1).toNat 1) else given
        match blockLines start literal indent (c.rest.length + 1) c [] [] breaks false with
        | .error e => .error e
        | .ok (c, text, last, empty) =>
          match chomp with
          | .strip => .ok (c, text)
          | .clip => .ok (c, text ++ last)
          | .keep => .ok (c, text ++ last ++ empty)

end Scalar

end EnglishScript.Yaml
