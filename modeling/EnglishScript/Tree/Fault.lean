import EnglishScript.Tree

namespace EnglishScript

/-- What is wrong with a tree built by hand. -/
inductive Fault where
  | missingStatement
  | missingExpression
  | missingNode
  | unknownOperator (symbol : Text)
  deriving DecidableEq, Repr

namespace Fault

/-- The message of a fault; a missing node that is merely visited has none. -/
def message? : Fault → Option Text
  | .missingStatement => some (utf8 "unexpected statement: <nil>")
  | .missingExpression => some (utf8 "unexpected expression: <nil>")
  | .missingNode => none
  | .unknownOperator symbol => some (utf8 "unexpected operator: " ++ symbol)

end Fault

/-- The fault of a missing node. -/
def Node.fault? : Node → Option Fault
  | .stmt .hole => some .missingStatement
  | .expr .hole => some .missingExpression
  | _ => none

/-- The fault of the first missing node of a program. -/
def Program.fault? (p : Program) : Option Fault :=
  (Program.walk p).findSome? Node.fault?

end EnglishScript
