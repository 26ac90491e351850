import EnglishScript.Token
import EnglishScript.Decimal.Reader

namespace EnglishScript

/-- What could have stood in the place of an unexpected token. -/
inductive Expectation where
  | kind (k : Kind)
  | statement
  | expression
  deriving DecidableEq, Repr

namespace Expectation

/-- The wording in messages. -/
def name : Expectation → Text
  | .kind k => k.name
  | .statement => utf8 "statement"
  | .expression => utf8 "expression"

end Expectation

/-- A token that does not fit, or a number that does not fit its format. -/
inductive ParseError where
  | unexpected (expected : Expectation) (got : Token)
  | invalidNumber (token : Token) (cause : NumeralError)
  deriving DecidableEq, Repr

namespace ParseError

/-- The message of the error. -/
def message : ParseError → Text
  | .unexpected expected got =>
    utf8 "expected " ++ expected.name ++ utf8 ", got " ++ got.kind.name ++ utf8 " at line " ++ Text.ofInt got.pos.line
  | .invalidNumber token cause =>
    utf8 "invalid number " ++ token.lexeme ++ utf8 " at line " ++ Text.ofInt token.pos.line
      ++ utf8 ": strconv.ParseFloat: parsing " ++ token.lexeme.quoted ++ utf8 ": " ++ cause.message

end ParseError

end EnglishScript
