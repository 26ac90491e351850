import EnglishScript.Text
import EnglishScript.Text.Quoted

namespace EnglishScript

/-- The kinds of token. A token made by hand may carry a code outside the enumeration. -/
inductive Kind where
  | eof | newline
  | create | variable | with | value | set | to | if | then | else | end | print | while | do | and | or | not
  | isGreaterThan | isLessThan | isEqualTo | isNotEqualTo
  | equals | plus | minus | multiply | divide | lparen | rparen
  | identifier | number | string
  | other (code : Int)
  deriving DecidableEq, Repr

namespace Kind

/-- The kinds with a name, in the order of their codes. -/
def named : List Kind :=
  [.eof, .newline, .create, .variable, .with, .value, .set, .to, .if, .then, .else, .end, .print, .while, .do, .and,
    .or, .not, .isGreaterThan, .isLessThan, .isEqualTo, .isNotEqualTo, .equals, .plus, .minus, .multiply, .divide,
    .lparen, .rparen, .identifier, .number, .string]

/-- The kind with a given code. -/
def ofCode : Int → Kind
  | .ofNat n => named.getD n (.other n)
  | .negSucc n => .other (.negSucc n)

/-- The name of a kind in listings and messages. -/
def name : Kind → Text
  | .eof => utf8 "EOF"
  | .newline => utf8 "NEWLINE"
  | .create => utf8 "CREATE"
  | .variable => utf8 "VARIABLE"
  | .with => utf8 "WITH"
  | .value => utf8 "VALUE"
  | .set => utf8 "SET"
  | .to => utf8 "TO"
  | .if => utf8 "IF"
  | .then => utf8 "THEN"
  | .else => utf8 "ELSE"
  | .end => utf8 "END"
  | .print => utf8 "PRINT"
  | .while => utf8 "WHILE"
  | .do => utf8 "DO"
  | .and => utf8 "AND"
  | .or => utf8 "OR"
  | .not => utf8 "NOT"
  | .isGreaterThan => utf8 "IS_GREATER_THAN"
  | .isLessThan => utf8 "IS_LESS_THAN"
  | .isEqualTo => utf8 "IS_EQUAL_TO"
  | .isNotEqualTo => utf8 "IS_NOT_EQUAL_TO"
  | .equals => utf8 "EQUALS"
  | .plus => utf8 "PLUS"
  | .minus => utf8 "MINUS"
  | .multiply => utf8 "MULTIPLY"
  | .divide => utf8 "DIVIDE"
  | .lparen => utf8 "LPAREN"
  | .rparen => utf8 "RPAREN"
  | .identifier => utf8 "IDENTIFIER"
  | .number => utf8 "NUMBER"
  | .string => utf8 "STRING"
  | .other code => utf8 "Kind(" ++ Text.ofInt code ++ utf8 ")"

/-- Whether a kind is one of the four comparison phrases. -/
def isComparison : Kind → Bool
  | .isGreaterThan | .isLessThan | .isEqualTo | .isNotEqualTo => true
  | _ => false

/-- The reserved words with their kinds, in lower case. -/
def keywords : List (Text × Kind) :=
  [(utf8 "create", .create), (utf8 "variable", .variable), (utf8 "with", .with), (utf8 "value", .value),
    (utf8 "set", .set), (utf8 "to", .to), (utf8 "if", .if), (utf8 "then", .then), (utf8 "else", .else),
    (utf8 "end", .end), (utf8 "print", .print), (utf8 "while", .while), (utf8 "do", .do), (utf8 "and", .and),
    (utf8 "or", .or), (utf8 "not", .not)]

/-- The kind of a word: a reserved word in any case, or an identifier. -/
def ofWord (word : Text) : Kind :=
  (keywords.lookup (Text.lower word)).getD .identifier

end Kind

/-- A place in a source: the line and the column, both counted from one, the column in glyphs. -/
structure Position where
  line : Int
  column : Int
  deriving DecidableEq, Repr

namespace Position

/-- The place where every source starts. -/
def start : Position := ⟨1, 1⟩

/-- The place after one more glyph. -/
def step (p : Position) (g : Glyph) : Position :=
  if g = .char '\n' then ⟨p.line + 1, 1⟩ else ⟨p.line, p.column + 1⟩

/-- The place after a text that starts at `p`. -/
def advance (p : Position) (t : Text) : Position :=
  t.glyphs.foldl step p

end Position

/-- A token of a source. -/
structure Token where
  kind : Kind
  lexeme : Text
  pos : Position
  deriving DecidableEq, Repr

namespace Token

/-- The token that ends a source. -/
def endAt (p : Position) : Token := ⟨.eof, [], p⟩

/-- A token in full, with its lexeme quoted. -/
def describe (t : Token) : Text :=
  utf8 "\x7b" ++ t.kind.name ++ utf8 ", " ++ t.lexeme.quoted ++ utf8 ", " ++ Text.ofInt t.pos.line ++ utf8 ":"
    ++ Text.ofInt t.pos.column ++ utf8 "\x7d"

/-- A line of the token listing. -/
def display (t : Token) : Text :=
  t.kind.name.padRight 20 ++ utf8 " -> '" ++ t.lexeme ++ utf8 "' (line " ++ Text.ofInt t.pos.line ++ utf8 ")"

/-- A message with the token where the failure happened. -/
def locate (t : Token) (message : Text) : Text :=
  if t.kind = .eof then utf8 "at end: " ++ message
  else utf8 "at line " ++ Text.ofInt t.pos.line ++ utf8 ": `" ++ t.lexeme ++ utf8 "`, " ++ message

end Token

end EnglishScript
