import EnglishScript.Text.Utf8

namespace EnglishScript.Yaml

/-- A place in a YAML text. -/
structure Mark where
  index : Nat
  line : Nat
  column : Nat
  deriving DecidableEq, Repr

/-- Who found an error: the reader of characters, of tokens, or of nodes. -/
inductive Stage where
  | characters
  | tokens
  | nodes
  deriving DecidableEq, Repr

/-- What is wrong with a YAML text, with the lines of the construct it stands in and of the problem itself. -/
structure Flaw where
  stage : Stage
  contextLine : Nat
  problemLine : Nat
  problem : Text
  deriving DecidableEq, Repr

namespace Flaw

/-- The line in the message: that of the construct unless it is the first one, else that of the problem. Only for
tokens are lines counted from one. -/
def shownLine (f : Flaw) : Nat :=
  let line := if f.contextLine ≠ 0 then f.contextLine else f.problemLine
  if line ≠ 0 && f.stage = .tokens then line + 1 else line

/-- The message of the error; the first line is not named. -/
def message (f : Flaw) : Text :=
  if f.shownLine = 0 then utf8 "yaml: " ++ f.problem
  else utf8 "yaml: line " ++ Text.ofNat f.shownLine ++ utf8 ": " ++ f.problem

end Flaw

/-- Whether a character ends a line. -/
def isBreak (c : Char) : Bool :=
  c == '\n' || c == '\r' || c.toNat == 0x85 || c.toNat == 0x2028 || c.toNat == 0x2029

/-- Whether a character is a space or a tab. -/
def isBlank (c : Char) : Bool :=
  c == ' ' || c == '\t'

/-- The characters ahead and the place of the first of them. -/
structure Cursor where
  rest : List Char
  mark : Mark
  deriving DecidableEq, Repr

namespace Cursor

/-- The beginning of a text. -/
def start (cs : List Char) : Cursor := ⟨cs, ⟨0, 0, 0⟩⟩

/-- The character `n` places ahead. -/
def at? (c : Cursor) (n : Nat) : Option Char :=
  c.rest[n]?

/-- Whether the character `n` places ahead is the given one. -/
def is (c : Cursor) (n : Nat) (x : Char) : Bool :=
  c.at? n == some x

/-- Whether the character `n` places ahead is white space or the end. -/
def isGap (c : Cursor) (n : Nat) : Bool :=
  match c.at? n with
  | none => true
  | some x => isBlank x || isBreak x

/-- Whether the next character ends a line. -/
def atBreak (c : Cursor) : Bool :=
  match c.rest with
  | x :: _ => isBreak x
  | [] => false

/-- Whether the next character is a space or a tab. -/
def atBlank (c : Cursor) : Bool :=
  match c.rest with
  | x :: _ => isBlank x
  | [] => false

/-- Goes over characters that end no line. -/
def skip (c : Cursor) (n : Nat) : Cursor :=
  ⟨c.rest.drop n, ⟨c.mark.index + n, c.mark.line, c.mark.column + n⟩⟩

/-- Goes over the end of a line; the two characters of a pair count as one end. The second part is what it stands for
in a scalar. -/
def takeBreak (c : Cursor) : Cursor × List Char :=
  match c.rest with
  | '\r' :: '\n' :: rest => (⟨rest, ⟨c.mark.index + 2, c.mark.line + 1, 0⟩⟩, ['\n'])
  | x :: rest =>
    if isBreak x then
      (⟨rest, ⟨c.mark.index + 1, c.mark.line + 1, 0⟩⟩, [if x.toNat < 0x2000 then '\n' else x])
    else (c, [])
  | [] => (c, [])

/-- Whether a document indicator made of three of the given characters starts here. -/
def atIndicator (c : Cursor) (x : Char) : Bool :=
  c.mark.column == 0 && c.is 0 x && c.is 1 x && c.is 2 x && c.isGap 3

/-- Whether either document indicator starts here. -/
def atDocumentMark (c : Cursor) : Bool :=
  c.atIndicator '-' || c.atIndicator '.'

end Cursor

/-- Whether a character may stand in a YAML text. -/
def isAllowed (c : Char) : Bool :=
  let n := c.toNat
  n == 9 || n == 10 || n == 13 || (0x20 ≤ n && n ≤ 0x7E) || n == 0x85 || (0xA0 ≤ n && n ≤ 0xD7FF)
    || (0xE000 ≤ n && n ≤ 0xFFFD && n != 0xFEFF) || 0x10000 ≤ n

/-- The number of bytes that a first byte announces; zero if it cannot be one. -/
def announcedWidth (b : UInt8) : Nat :=
  if b < 0x80 then 1 else if b < 0xC0 then 0 else if b < 0xE0 then 2 else if b < 0xF0 then 3
  else if b < 0xF8 then 4 else 0

/-- What is wrong with bytes that are no character. -/
def strayReason (b : UInt8) (rest : Text) : Text :=
  let width := announcedWidth b
  if width = 0 then utf8 "invalid leading UTF-8 octet"
  else if rest.length + 1 < width then utf8 "incomplete UTF-8 octet sequence"
  else
    let tail := rest.take (width - 1)
    if !tail.all (Text.within 0x80 0xBF) then utf8 "invalid trailing UTF-8 octet"
    else
      let lead := if width = 2 then b.toNat - 0xC0 else if width = 3 then b.toNat - 0xE0 else b.toNat - 0xF0
      let value := tail.foldl (fun n x => n * 64 + Text.payload x) lead
      let least := if width = 2 then 0x80 else if width = 3 then 0x800 else 0x10000
      if value < least then utf8 "invalid length of a UTF-8 sequence" else utf8 "invalid Unicode character"

/-- The characters of a text; the first `skip` bytes belong to one already read. -/
def charactersFrom : Nat → Text → Except Flaw (List Char)
  | _, [] => .ok []
  | skip + 1, _ :: rest => charactersFrom skip rest
  | 0, b :: rest =>
    match Text.firstGlyph b rest with
    | (.stray _, _) => .error ⟨.characters, 0, 0, strayReason b rest⟩
    | (.char c, width) =>
      if isAllowed c then (charactersFrom width rest).map (c :: ·)
      else .error ⟨.characters, 0, 0, utf8 "control characters are not allowed"⟩

/-- The characters of a text, without a byte order mark in front. -/
def characters (t : Text) : Except Flaw (List Char) :=
  match t with
  | 0xEF :: 0xBB :: 0xBF :: rest => charactersFrom 0 rest
  | _ => charactersFrom 0 t

end EnglishScript.Yaml
