import EnglishScript.Tree
import EnglishScript.Tree.ParseError

namespace EnglishScript

/-- How tightly an operator binds. -/
inductive Level where
  | logic
  | comparison
  | sum
  | product
  deriving DecidableEq, Repr

namespace Level

/-- The levels in order, the loosest first. -/
def rank : Level → Nat
  | .logic => 0
  | .comparison => 1
  | .sum => 2
  | .product => 3

/-- The form of the operations of a level. -/
def form : Level → Form
  | .logic => .logic
  | .comparison => .comparison
  | .sum => .arithmetic
  | .product => .arithmetic

/-- The level of an operator. -/
def ofKind? : Kind → Option Level
  | .and | .or => some .logic
  | .isGreaterThan | .isLessThan | .isEqualTo | .isNotEqualTo => some .comparison
  | .plus | .minus => some .sum
  | .multiply | .divide => some .product
  | _ => none

end Level

/-- An operator with its left operand, whose right operand is being read. -/
structure Pending where
  left : Expr
  op : Token
  level : Level
  deriving DecidableEq, Repr

namespace Pending

/-- The operation with its right operand. -/
def close (p : Pending) (right : Expr) : Expr :=
  .operation p.level.form p.left p.op right

/-- Closes the pending operations that bind at least as tightly as `level`. -/
def closeTo (level : Level) : List Pending → Expr → List Pending × Expr
  | [], e => ([], e)
  | p :: rest, e => if level.rank ≤ p.level.rank then closeTo level rest (p.close e) else (p :: rest, e)

/-- Closes all pending operations. -/
def closeAll : List Pending → Expr → Expr
  | [], e => e
  | p :: rest, e => closeAll rest (p.close e)

end Pending

/-- An expression being read: an operand is due, or one has just been read. Both keep the pending operations, the tightest
last, and those outside each open parenthesis. -/
inductive Draft where
  | wantsOperand (pending : List Pending) (outer : List (List Pending))
  | hasOperand (operand : Expr) (pending : List Pending) (outer : List (List Pending))
  deriving DecidableEq, Repr

namespace Draft

/-- Nothing read yet. -/
def empty : Draft := .wantsOperand [] []

/-- The finished expression, if the next token does not belong to it any more. -/
def finished? : Draft → Token → Option Expr
  | .hasOperand e pending [], t => if (Level.ofKind? t.kind).isNone then some (Pending.closeAll pending e) else none
  | _, _ => none

/-- Reads a token where an operand is due. -/
def readOperand (pending : List Pending) (outer : List (List Pending)) (t : Token) : Except ParseError Draft :=
  match t.kind with
  | .number =>
    match readFloat t.lexeme with
    | .ok value => .ok (.hasOperand (.number t value) pending outer)
    | .error cause => .error (.invalidNumber t cause)
  | .string => .ok (.hasOperand (.string t t.lexeme) pending outer)
  | .identifier => .ok (.hasOperand (.var t) pending outer)
  | .lparen => .ok (.wantsOperand [] (pending :: outer))
  | _ => .error (.unexpected .expression t)

/-- Reads a token behind an operand. -/
def readOperator (e : Expr) (pending : List Pending) (outer : List (List Pending)) (t : Token) :
    Except ParseError Draft :=
  match Level.ofKind? t.kind with
  | some level =>
    let (rest, left) := Pending.closeTo level pending e
    .ok (.wantsOperand (⟨left, t, level⟩ :: rest) outer)
  | none =>
    match outer with
    | around :: outer =>
      if t.kind = .rparen then .ok (.hasOperand (Pending.closeAll pending e) around outer)
      else .error (.unexpected (.kind .rparen) t)
    | [] => .error (.unexpected (.kind .rparen) t)

/-- Reads one more token of the expression. -/
def step : Draft → Token → Except ParseError Draft
  | .wantsOperand pending outer, t => readOperand pending outer t
  | .hasOperand e pending outer, t => readOperator e pending outer t

end Draft

end EnglishScript
