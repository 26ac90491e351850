import EnglishScript.Python.Literal

namespace EnglishScript.Python

/-- What a symbol is. -/
inductive Lexis where
  | name (t : Text)
  | keyword (t : Text)
  | number
  | string
  | bytes
  | sign (t : Text)
  | newline
  | indent
  | dedent
  | endOfFile
  | flaw (reason : Text)
  deriving DecidableEq, Repr

/-- Where the reader stands after a symbol: the line, the bytes of it that are read, and its text. -/
structure Spot where
  line : Nat
  offset : Nat
  text : Text
  deriving DecidableEq, Repr

/-- A symbol of Python text. -/
structure Symbol where
  lexis : Lexis
  spot : Spot
  deriving DecidableEq, Repr

/-- The words that the checker takes for keywords. -/
def keywords : List Text :=
  [utf8 "False", utf8 "None", utf8 "True", utf8 "and", utf8 "as", utf8 "assert", utf8 "break", utf8 "class",
    utf8 "continue", utf8 "def", utf8 "del", utf8 "elif", utf8 "else", utf8 "except", utf8 "finally", utf8 "for",
    utf8 "from", utf8 "global", utf8 "if", utf8 "import", utf8 "in", utf8 "is", utf8 "lambda", utf8 "nonlocal",
    utf8 "not", utf8 "or", utf8 "pass", utf8 "raise", utf8 "return", utf8 "try", utf8 "while", utf8 "with",
    utf8 "yield"]

namespace Scan

/-- The signs, the longest first. -/
def signs : List Text :=
  ["<<=", ">>=", "**=", "//=", "...", "<<", ">>", "<=", ">=", "==", "!=", "<>", "->", "+=", "-=", "*=", "/=", "%=",
    "&=", "|=", "^=", "**", "//", "(", ")", "[", "]", "\x7b", "\x7d", ":", ",", ";", "+", "-", "*", "/", "|", "&", "<",
    ">", "=", ".", "%", "^", "~", "@"].map utf8

/-- Whether a byte can start a name. Every byte outside ASCII counts as part of a letter. -/
def startsName (b : UInt8) : Bool :=
  Text.isAlpha b || 128 ≤ b

/-- Whether a byte can stand in a name. -/
def inName (b : UInt8) : Bool :=
  startsName b || Text.isDigit b

/-- The bytes before the quote that closes a literal of one line; a backslash protects the byte behind it. -/
def closing (q : UInt8) : Text → Option Nat
  | [] => none
  | b :: rest =>
    if b = q then some 0
    else if b = Text.backslash then
      match rest with
      | [] => none
      | _ :: more => (closing q more).map (· + 2)
    else (closing q rest).map (· + 1)

/-- The bytes before the three quotes that close a long literal, if they stand on this line. -/
def closingThree (q : UInt8) : Text → Option Nat
  | [] => none
  | b :: rest =>
    if [q, q, q].isPrefixOf (b :: rest) then some 0
    else if b = Text.backslash then
      match rest with
      | [] => none
      | _ :: more => (closingThree q more).map (· + 2)
    else (closingThree q rest).map (· + 1)

/-- How the text of a literal is to be read. -/
structure Manner where
  quote : UInt8
  raw : Bool
  bytes : Bool
  deriving DecidableEq, Repr

/-- The letters that may stand before a quote, in lower case. -/
def manners : List (Text × Bool × Bool) :=
  [(utf8 "br", true, true), (utf8 "rb", true, true), (utf8 "b", false, true), (utf8 "r", true, false),
    (utf8 "u", false, false), ([], false, false)]

/-- The opening of a literal at the start of a text: its manner and the number of letters before the quote. -/
def opening? (s : Text) : Option (Manner × Nat) :=
  manners.findSome? fun (letters, raw, bytes) =>
    match s.drop letters.length with
    | q :: _ =>
      if Text.sameLetters (s.take letters.length) letters && (q == Text.quote || q == 39) then
        some (⟨q, raw, bytes⟩, letters.length)
      else none
    | [] => none

/-- The symbol of a closed literal, or what is wrong with its text. -/
def literal (m : Manner) (body : Text) : Lexis :=
  if m.bytes && body.any (128 ≤ ·) then .flaw (utf8 "bytes can only contain ASCII literal characters.")
  else if m.raw then (if m.bytes then .bytes else .string)
  else
    match Literal.decode m.bytes body with
    | .ok _ => if m.bytes then .bytes else .string
    | .error e => .flaw (utf8 "Decode error: " ++ e.message)

/-- The digits of a number in another base than ten, behind `0x`, `0o` or `0b`. -/
def basedDigits (rest : Text) : Option Text :=
  match rest with
  | x :: more =>
    let digits :=
      match Text.lowerByte x with
      | 120 => more.takeWhile fun b => (Text.hexDigit? b).isSome
      | 111 => more.takeWhile fun b => 48 ≤ b && b ≤ 55
      | 98 => more.takeWhile fun b => 48 ≤ b && b ≤ 49
      | _ => []
    if digits.isEmpty then none else some (x :: digits)
  | [] => none

/-- An exponent at the start of a text. -/
def exponentPart (s : Text) : Text :=
  match s with
  | e :: rest =>
    if Text.lowerByte e = 101 then
      match rest with
      | d :: more =>
        if d = 43 || d = 45 then
          let digits := more.takeWhile Text.isDigit
          if digits.isEmpty then [] else e :: d :: digits
        else
          let digits := rest.takeWhile Text.isDigit
          if digits.isEmpty then [] else e :: digits
      | [] => []
    else []
  | [] => []

/-- The digits of a number in another base that starts with a zero. -/
def based? : Text → Option Text
  | 48 :: rest => basedDigits rest
  | _ => none

/-- A point with the digits behind it at the start of a text. -/
def pointPart : Text → Text
  | 46 :: rest => 46 :: rest.takeWhile Text.isDigit
  | _ => []

/-- Whether the letter of an imaginary number stands at the start of a text. -/
def startsUnit : Text → Bool
  | 106 :: _ | 74 :: _ => true
  | _ => false

/-- The number of bytes of a number at the start of a text; none if no number stands there. -/
def numberWidth (s : Text) : Nat :=
  match based? s with
  | some digits => digits.length + 1
  | none =>
    let whole := s.takeWhile Text.isDigit
    let fraction := pointPart (s.drop whole.length)
    let mantissa := whole ++ (if whole.isEmpty && fraction.length ≤ 1 then [] else fraction)
    if mantissa.isEmpty then 0
    else
      let power := exponentPart (s.drop mantissa.length)
      let width := mantissa.length + power.length
      if startsUnit (s.drop width) then width + 1 else width

/-- Whether the decimal digits at the start of a text have a leading zero that Python refuses. -/
def hasLeadingZero (s : Text) : Bool :=
  let digits := s.take (numberWidth s)
  digits.all Text.isDigit && digits.head? == some 48 && digits.any (· != 48)

/-- What stands at the start of the rest of a line; `width` bytes belong to it. -/
inductive Piece where
  | gap
  | comment
  | symbol (lexis : Lexis) (width : Nat)
  | long (m : Manner) (body : Text)
  deriving DecidableEq, Repr

/-- The literal at the start of a text. One that does not close on its line is a flaw just behind its opening quote,
unless it opens with three quotes. -/
def literalPiece (m : Manner) (letters : Nat) (s : Text) : Piece :=
  let start := letters + 1
  if [m.quote, m.quote, m.quote].isPrefixOf (s.drop letters) then
    let body := s.drop (letters + 3)
    match closingThree m.quote body with
    | some n => .symbol (literal m (body.take n)) (letters + n + 6)
    | none => .long m body
  else
    let body := s.drop start
    match closing m.quote body with
    | some n => .symbol (literal m (body.take n)) (start + n + 1)
    | none => .symbol (.flaw (utf8 "EOL while scanning string literal")) start

/-- What the rest of a line starts with. -/
def piece (c : UInt8) (rest : Text) : Piece :=
  let s := c :: rest
  if c = Text.space || c = Text.tab then .gap
  else if c = 35 then .comment
  else if numberWidth s ≠ 0 then
    if hasLeadingZero s then .symbol (.flaw (utf8 "illegal decimal with leading zero")) 0
    else .symbol .number (numberWidth s)
  else
    match opening? s with
    | some (m, letters) => literalPiece m letters s
    | none =>
      if startsName c then
        let word := s.takeWhile inName
        .symbol (if keywords.contains word then .keyword word else .name word) word.length
      else
        match signs.find? fun t => t.isPrefixOf s with
        | some t => .symbol (.sign t) t.length
        | none => .symbol (.flaw (utf8 "invalid syntax")) 0

/-- How a line ends: in the normal way, at a flaw, or inside a long literal. -/
inductive Ending where
  | plain
  | broken
  | inside (m : Manner) (body : Text)
  deriving DecidableEq, Repr

/-- The symbols of a line, the brackets open behind it, and how it ends. -/
structure Line where
  symbols : List Symbol
  depth : Int
  ending : Ending
  deriving DecidableEq, Repr

/-- The change that a sign makes to the number of open brackets. -/
def bracketChange : Lexis → Int
  | .sign t =>
    if t = utf8 "(" || t = utf8 "[" || t = utf8 "\x7b" then 1
    else if t = utf8 ")" || t = utf8 "]" || t = utf8 "\x7d" then -1
    else 0
  | _ => 0

/-- Reads the rest of a line. The first `skip` bytes belong to a symbol already read; `here` is the spot before them. -/
def restOfLine : Nat → Spot → Int → Text → Line
  | _, _, depth, [] => ⟨[], depth, .plain⟩
  | skip + 1, here, depth, _ :: rest => restOfLine skip { here with offset := here.offset + 1 } depth rest
  | 0, here, depth, c :: rest =>
    match piece c rest with
    | .gap => restOfLine 0 { here with offset := here.offset + 1 } depth rest
    | .comment => ⟨[], depth, .plain⟩
    | .long m body => ⟨[], depth, .inside m body⟩
    | .symbol lexis width =>
      let s : Symbol := ⟨lexis, { here with offset := here.offset + width }⟩
      match lexis with
      | .flaw _ => ⟨[s], depth, .broken⟩
      | _ =>
        let line := restOfLine (width - 1) { here with offset := here.offset + 1 } (depth + bracketChange lexis) rest
        { line with symbols := s :: line.symbols }

/-- The width of an indentation; a tab goes to the next multiple of eight. -/
def indentWidth (blanks : Text) : Nat :=
  blanks.foldl (fun n b => if b = Text.tab then (n / 8 + 1) * 8 else n + 1) 0

/-- The symbols for a change of indentation, and the open indentations behind it. -/
def indentation (stack : List Nat) (width : Nat) (spot : Spot) : List Symbol × List Nat :=
  if stack.headD 0 < width then ([⟨.indent, spot⟩], width :: stack)
  else
    let kept := stack.dropWhile (width < ·)
    let closed := List.replicate (stack.length - kept.length) (⟨.dedent, spot⟩ : Symbol)
    if kept.headD 0 = width then (closed, kept)
    else ([⟨.flaw (utf8 "inconsistent dedent"), spot⟩], kept)

/-- The state between two lines: open brackets, open indentations, and a long literal that is not closed. -/
structure Between where
  depth : Int
  stack : List Nat
  inside : Option (Manner × Text)
  deriving DecidableEq, Repr

/-- The symbols behind the last line. -/
def endSymbols (state : Between) (number : Nat) : List Symbol :=
  let spot : Spot := ⟨number, 0, []⟩
  match state.inside with
  | some _ => [⟨.flaw (utf8 "EOF while scanning triple-quoted string literal"), spot⟩]
  | none => List.replicate state.stack.length (⟨.dedent, spot⟩ : Symbol) ++ [⟨.endOfFile, spot⟩]

/-- The symbols of a line that has been read, then those of the lines behind it. -/
def close (line : Line) (spot : Spot) (stack : List Nat) (next : Between → List Symbol) : List Symbol :=
  match line.ending with
  | .broken => line.symbols
  | .inside m body => line.symbols ++ next ⟨line.depth, stack, some (m, body ++ [Text.lf])⟩
  | .plain =>
    let ends : List Symbol := if line.depth = 0 then [⟨.newline, spot⟩] else []
    line.symbols ++ ends ++ next ⟨line.depth, stack, none⟩

/-- The symbols of the lines from the given number on. -/
def linesFrom (state : Between) (number : Nat) : List Text → List Symbol
  | [] => endSymbols state number
  | text :: rest =>
    let full := text ++ [Text.lf]
    let spot (offset : Nat) : Spot := ⟨number, offset, full⟩
    let next (s : Between) : List Symbol := linesFrom s (number + 1) rest
    match state.inside with
    | some (m, body) =>
      match closingThree m.quote text with
      | none => next { state with inside := some (m, body ++ full) }
      | some n =>
        let s : Symbol := ⟨literal m (body ++ text.take n), spot (n + 3)⟩
        let line := restOfLine 0 (spot (n + 3)) state.depth (text.drop (n + 3))
        close { line with symbols := s :: line.symbols } (spot text.length) state.stack next
    | none =>
      let blanks := text.takeWhile fun b => b == Text.space || b == Text.tab
      let body := text.drop blanks.length
      if state.depth = 0 then
        if body.isEmpty || body.head? == some 35 then next state
        else
          let (changes, stack) := indentation state.stack (indentWidth blanks) (spot blanks.length)
          changes ++ close (restOfLine 0 (spot blanks.length) 0 body) (spot text.length) stack next
      else close (restOfLine 0 (spot blanks.length) state.depth body) (spot text.length) state.stack next

end Scan

/-- The symbols of a Python text whose lines all end in a line feed. -/
def symbols (source : Text) : List Symbol :=
  Scan.linesFrom ⟨0, [], none⟩ 1 (Text.splitLines source).dropLast

end EnglishScript.Python
