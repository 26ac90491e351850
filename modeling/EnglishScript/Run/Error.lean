import EnglishScript.Run.Value
import EnglishScript.Tree.Fault
import EnglishScript.Python.Literal

namespace EnglishScript

/-- The causes of an exception. -/
inductive Cause where
  | keyword (name : Text)
  | unterminatedLiteral
  | badEscape (e : Python.EscapeError)
  | undefined (name : Text)
  | concatenation (right : Text)
  | repetition (count : Text)
  | tooLong
  | operands (symbol left right : Text)
  | incomparable (symbol left right : Text)
  | floatDivision
  | intDivision
  deriving DecidableEq, Repr

namespace Cause

/-- Python's class for the exception. -/
def kind : Cause → Text
  | .keyword _ | .unterminatedLiteral | .badEscape _ => utf8 "SyntaxError"
  | .undefined _ => utf8 "NameError"
  | .concatenation _ | .repetition _ | .operands _ _ _ | .incomparable _ _ _ => utf8 "TypeError"
  | .tooLong => utf8 "MemoryError"
  | .floatDivision | .intDivision => utf8 "ZeroDivisionError"

/-- Whether Python would refuse the program before it runs. -/
def isSyntaxError : Cause → Bool
  | .keyword _ | .unterminatedLiteral | .badEscape _ => true
  | _ => false

/-- The wording of the exception. -/
def reason : Cause → Text
  | .keyword name => utf8 "invalid syntax: '" ++ name ++ utf8 "' is a keyword"
  | .unterminatedLiteral => utf8 "unterminated string literal"
  | .badEscape e => utf8 "(unicode error) " ++ e.message
  | .undefined name => utf8 "name '" ++ name ++ utf8 "' is not defined"
  | .concatenation right => utf8 "can only concatenate str (not \"" ++ right ++ utf8 "\") to str"
  | .repetition count => utf8 "can't multiply sequence by non-int of type '" ++ count ++ utf8 "'"
  | .tooLong => utf8 "repeated string is too long"
  | .operands symbol left right =>
    utf8 "unsupported operand type(s) for " ++ symbol ++ utf8 ": '" ++ left ++ utf8 "' and '" ++ right ++ utf8 "'"
  | .incomparable symbol left right =>
    utf8 "'" ++ symbol ++ utf8 "' not supported between instances of '" ++ left ++ utf8 "' and '" ++ right ++ utf8 "'"
  | .floatDivision => utf8 "float division by zero"
  | .intDivision => utf8 "division by zero"

/-- The exception with its class. -/
def message (c : Cause) : Text :=
  c.kind ++ utf8 ": " ++ c.reason

end Cause

/-- Why a run ends early. -/
inductive RunError where
  | raised (token : Token) (cause : Cause)
  | stepLimit (limit : Int)
  | canceled
  | fault (f : Fault)
  | horizon
  deriving DecidableEq, Repr

namespace RunError

/-- The message of the error. -/
def message : RunError → Text
  | .raised token cause => token.locate cause.message
  | .stepLimit limit => utf8 "step limit exceeded: " ++ Text.ofInt limit
  | .canceled => utf8 "context canceled"
  | .fault f => f.message?.getD []
  | .horizon => utf8 "run beyond the horizon"

end RunError

end EnglishScript
