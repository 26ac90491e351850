import EnglishScript.Tree.Fault
import EnglishScript.Decimal.Layout

namespace EnglishScript

namespace Python

/-- The lines that open every generated file. -/
def header : List Text :=
  [utf8 "#!/usr/bin/env python3", utf8 "# Generated from EBPL", []]

/-- The words that Python keeps for itself. A variable named like one of them makes the generated text invalid. -/
def reserved : List Text :=
  [utf8 "False", utf8 "None", utf8 "True", utf8 "and", utf8 "as", utf8 "assert", utf8 "async", utf8 "await",
    utf8 "break", utf8 "class", utf8 "continue", utf8 "def", utf8 "del", utf8 "elif", utf8 "else", utf8 "except",
    utf8 "finally", utf8 "for", utf8 "from", utf8 "global", utf8 "if", utf8 "import", utf8 "in", utf8 "is",
    utf8 "lambda", utf8 "nonlocal", utf8 "not", utf8 "or", utf8 "pass", utf8 "raise", utf8 "return", utf8 "try",
    utf8 "while", utf8 "with", utf8 "yield"]

/-- A line at a depth of nesting, four spaces for each level. -/
def line (depth : Nat) (t : Text) : Text :=
  List.replicate (4 * depth) Text.space ++ t

/-- The lines of a body; Python asks for at least one statement. -/
def body (depth : Nat) (lines : List Text) : List Text :=
  if lines.isEmpty then [line depth (utf8 "pass")] else lines

end Python

open Python

/-- An expression in Python. -/
def Expr.python : Expr → Text
  | .number _ value => pythonFloat value
  | .string _ value => [Text.quote] ++ value ++ [Text.quote]
  | .var name => name.lexeme
  | .operation form left op right =>
    utf8 "(" ++ left.python ++ utf8 " " ++ form.symbol op ++ utf8 " " ++ right.python ++ utf8 ")"
  | .hole => []

mutual

/-- The lines of a statement at a depth of nesting. -/
def Stmt.python (depth : Nat) : Stmt → List Text
  | .create name value => [line depth (name.lexeme ++ utf8 " = " ++ value.python)]
  | .assign name value => [line depth (name.lexeme ++ utf8 " = " ++ value.python)]
  | .print _ value => [line depth (utf8 "print(" ++ value.python ++ utf8 ")")]
  | .branch _ cond yes no =>
    line depth (utf8 "if " ++ cond.python ++ utf8 ":") :: (body (depth + 1) (pythonBlock (depth + 1) yes) ++
      match no with
      | some [] => []
      | some block => line depth (utf8 "else:") :: body (depth + 1) (pythonBlock (depth + 1) block)
      | none => [])
  | .loop _ cond block =>
    line depth (utf8 "while " ++ cond.python ++ utf8 ":") :: body (depth + 1) (pythonBlock (depth + 1) block)
  | .hole => []

/-- The lines of the statements of a block. -/
def pythonBlock (depth : Nat) : List Stmt → List Text
  | [] => []
  | s :: rest => s.python depth ++ pythonBlock depth rest

end

/-- The lines of a program behind the header. -/
def Program.pythonLines (p : Program) : List Text :=
  pythonBlock 0 p

/-- The Python source of a program. -/
def Program.python (p : Program) : Text :=
  Text.unlines (header ++ Program.pythonLines p)

/-- The Python source of a program, or the fault of its first missing node. -/
def Program.python? (p : Program) : Except Fault Text :=
  match Program.fault? p with
  | some fault => .error fault
  | none => .ok (Program.python p)

end EnglishScript
