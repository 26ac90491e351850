import EnglishScript.Run.Error
import EnglishScript.Python.Source

namespace EnglishScript

namespace Evaluation

/-- The longest text that repetition may give, in bytes. -/
def maxLength : Float := 268435456

/-- The text that a string literal stands for. -/
def literal [Python.Decoder] (token : Token) (raw : Text) : Except RunError Text :=
  if Python.Literal.escapesEnd raw then .error (.raised token .unterminatedLiteral)
  else
    match Python.Decoder.decode raw with
    | .ok t => .ok t
    | .error e => .error (.raised token (.badEscape e))

/-- `n` copies of a text. -/
def copies (n : Nat) (s : Text) : Text :=
  if s.isEmpty then [] else (List.replicate n s).flatten

/-- A text times a whole number; below one it gives the empty text. -/
def repetition (op : Token) (s : Text) (count : Value) : Except RunError Value :=
  match count.number? with
  | some (n, false) =>
    if n < 1 then .ok (.str [])
    else if maxLength < Float.ofNat s.length * n then .error (.raised op .tooLong)
    else .ok (.str (copies (Value.wholeOf n).toNat s))
  | _ => .error (.raised op (.repetition count.typeName))

/-- Arithmetic on two numbers. -/
def numeric (op : Token) (l r : Float) (isFloat : Bool) : Except RunError Value :=
  if op.lexeme = utf8 "+" then .ok (Value.ofResult (l + r) isFloat)
  else if op.lexeme = utf8 "-" then .ok (Value.ofResult (l - r) isFloat)
  else if op.lexeme = utf8 "*" then .ok (Value.ofResult (l * r) isFloat)
  else if op.lexeme = utf8 "/" then
    if r == 0 then .error (.raised op (if isFloat then .floatDivision else .intDivision))
    else .ok (.float (l / r))
  else .error (.fault (.unknownOperator op.lexeme))

/-- Arithmetic on operands that have to be numbers. -/
def numbers (op : Token) (left right : Value) : Except RunError Value :=
  match left.number?, right.number? with
  | some (l, lf), some (r, rf) => numeric op l r (lf || rf)
  | _, _ => .error (.raised op (.operands op.lexeme left.typeName right.typeName))

/-- An arithmetic operation: texts can be joined with `+` and repeated with `*`, all else is for numbers. -/
def arithmetic (op : Token) (left right : Value) : Except RunError Value :=
  if op.lexeme = utf8 "+" then
    match left, right with
    | .str l, .str r => .ok (.str (l ++ r))
    | .str _, _ => .error (.raised op (.concatenation right.typeName))
    | _, _ => numbers op left right
  else if op.lexeme = utf8 "*" then
    match left, right with
    | .str s, _ => repetition op s right
    | _, .str s => repetition op s left
    | _, _ => numbers op left right
  else numbers op left right

/-- Whether two values are equal: numbers by value, texts by their bytes, and nothing else. -/
def equal (left right : Value) : Bool :=
  match left, right with
  | .str l, .str r => l == r
  | _, _ =>
    match left.number?, right.number? with
    | some (l, _), some (r, _) => l == r
    | _, _ => false

/-- A comparison by order. Every symbol but `>` asks for the smaller value on the left. -/
def ordered (op : Token) (left right : Value) : Except RunError Value :=
  let symbol := Form.comparison.symbol op
  let greater := symbol == utf8 ">"
  match left, right with
  | .str l, .str r => .ok (.bool (if greater then Text.before r l else Text.before l r))
  | _, _ =>
    match left.number?, right.number? with
    | some (l, _), some (r, _) => .ok (.bool (if greater then r < l else l < r))
    | _, _ => .error (.raised op (.incomparable symbol left.typeName right.typeName))

/-- A comparison. Equality is for all values, order for two numbers or two texts. -/
def comparison (op : Token) (left right : Value) : Except RunError Value :=
  let symbol := Form.comparison.symbol op
  if symbol = utf8 "==" then .ok (.bool (equal left right))
  else if symbol = utf8 "!=" then .ok (.bool (!equal left right))
  else ordered op left right

end Evaluation

open Evaluation

/-- The value of an expression. -/
def Expr.eval [Python.Decoder] (env : Env) : Expr → Except RunError Value
  | .number _ value => .ok (.float value)
  | .string token raw => (literal token raw).map .str
  | .var name =>
    match env.get? name.lexeme with
    | some v => .ok v
    | none => .error (.raised name (.undefined name.lexeme))
  | .operation .logic left op right =>
    match left.eval env with
    | .error e => .error e
    | .ok v => if (op.kind == .and) != v.truthy then .ok v else right.eval env
  | .operation form left op right =>
    match left.eval env with
    | .error e => .error e
    | .ok l =>
      match right.eval env with
      | .error e => .error e
      | .ok r => if form = .arithmetic then arithmetic op l r else comparison op l r
  | .hole => .error (.fault .missingExpression)

end EnglishScript
