import EnglishScript.Token.Phrase

namespace EnglishScript

/-- Why a source has no tokens. -/
inductive LexError where
  | unexpectedCharacter (pos : Position) (char : Char)
  | unterminatedString (pos : Position)
  deriving DecidableEq, Repr

namespace LexError

/-- The place of the error. -/
def pos : LexError → Position
  | .unexpectedCharacter p _ => p
  | .unterminatedString p => p

/-- The message of the error. -/
def message : LexError → Text
  | .unexpectedCharacter p c =>
    utf8 "unexpected character '" ++ Text.ofChar c ++ utf8 "' at line " ++ Text.ofInt p.line ++ utf8 ", column "
      ++ Text.ofInt p.column
  | .unterminatedString p =>
    utf8 "unterminated string literal at line " ++ Text.ofInt p.line ++ utf8 ", column " ++ Text.ofInt p.column

end LexError

namespace Lexer

/-- What stands at the start of a text: `width` bytes after the first belong to it. -/
inductive Piece where
  | blank
  | token (kind : Kind) (lexeme : Text) (width : Nat)
  | unexpected (char : Char)
  | unterminated
  deriving DecidableEq, Repr

/-- The signs of one byte. -/
def sign? : UInt8 → Option Kind
  | 43 => some .plus
  | 45 => some .minus
  | 42 => some .multiply
  | 47 => some .divide
  | 61 => some .equals
  | 40 => some .lparen
  | 41 => some .rparen
  | _ => none

/-- The bytes that stand between tokens: space, tab and carriage return. -/
def isLayout (b : UInt8) : Bool :=
  b == Text.space || b == Text.tab || b == Text.cr

/-- Whether a byte can stand inside a string literal. -/
def isStringByte (b : UInt8) : Bool :=
  b != Text.quote && b != Text.lf

/-- The string literal whose opening quote stands before `rest`. -/
def stringPiece (rest : Text) : Piece :=
  let body := rest.takeWhile isStringByte
  match rest.drop body.length with
  | b :: _ => if b = Text.quote then .token .string body (body.length + 1) else .unterminated
  | [] => .unterminated

/-- The part of a number after its whole digits: a point and digits, if a digit follows the point. -/
def fraction (s : Text) : Text :=
  match s with
  | 46 :: d :: rest => if Text.isDigit d then 46 :: d :: rest.takeWhile Text.isDigit else []
  | _ => []

/-- The number whose first digit is `d`. -/
def numberPiece (d : UInt8) (rest : Text) : Piece :=
  let whole := rest.takeWhile Text.isDigit
  let lexeme := whole ++ fraction (rest.dropWhile Text.isDigit)
  .token .number (d :: lexeme) lexeme.length

/-- The word or comparison phrase whose first letter is `c`. -/
def wordPiece (c : UInt8) (rest : Text) : Piece :=
  match Phrase.at? (c :: rest) with
  | some (phrase, after) => .token phrase.kind phrase.spelling (rest.length - after.length)
  | none =>
    let tail := rest.takeWhile Text.isWord
    .token (Kind.ofWord (c :: tail)) (c :: tail) tail.length

/-- What the text `c :: rest` starts with. -/
def piece (c : UInt8) (rest : Text) : Piece :=
  if isLayout c then .blank
  else if c = Text.lf then .token .newline [Text.lf] 0
  else if c = Text.quote then stringPiece rest
  else
    match sign? c with
    | some kind => .token kind [c] 0
    | none =>
      if Text.isDigit c then numberPiece c rest
      else if Text.isAlpha c then wordPiece c rest
      else .unexpected (Text.firstGlyph c rest).1.toChar

/-- The tokens of a text whose first `skip` bytes belong to a token already read; `p` is the place behind it. -/
def tokensFrom : Nat → Position → Text → Except LexError (List Token)
  | _, p, [] => .ok [Token.endAt p]
  | skip + 1, p, _ :: rest => tokensFrom skip p rest
  | 0, p, c :: rest =>
    match piece c rest with
    | .blank => tokensFrom 0 (p.advance [c]) rest
    | .token kind lexeme width =>
      (tokensFrom width (p.advance (c :: rest.take width)) rest).map (⟨kind, lexeme, p⟩ :: ·)
    | .unexpected char => .error (.unexpectedCharacter p char)
    | .unterminated => .error (.unterminatedString p)

end Lexer

/-- The tokens of a source, the last one marking its end. -/
def lex (source : Text) : Except LexError (List Token) :=
  Lexer.tokensFrom 0 .start source

end EnglishScript
