import EnglishScript.Token

namespace EnglishScript

/-- The three forms of an operation. -/
inductive Form where
  | arithmetic
  | comparison
  | logic
  deriving DecidableEq, Repr

/-- An expression. -/
inductive Expr where
  | number (token : Token) (value : Float)
  | string (token : Token) (value : Text)
  | var (name : Token)
  | operation (form : Form) (left : Expr) (op : Token) (right : Expr)
  | hole
  deriving DecidableEq, Repr

/-- A statement. A branch keeps apart an `else` without statements and no `else` at all. -/
inductive Stmt where
  | create (name : Token) (value : Expr)
  | assign (name : Token) (value : Expr)
  | print (keyword : Token) (value : Expr)
  | branch (keyword : Token) (cond : Expr) (yes : List Stmt) (no : Option (List Stmt))
  | loop (keyword : Token) (cond : Expr) (body : List Stmt)
  | hole
  deriving Repr

instance : Inhabited Expr := ⟨.hole⟩

instance : Inhabited Stmt := ⟨.hole⟩

/-- A program is a sequence of statements. -/
abbrev Program := List Stmt

/-- The symbol of an operation. Arithmetic keeps the spelling of its token; a comparison and a logical operation go by
its kind. -/
def Form.symbol (form : Form) (op : Token) : Text :=
  match form with
  | .arithmetic => op.lexeme
  | .comparison =>
    match op.kind with
    | .isGreaterThan => utf8 ">"
    | .isLessThan => utf8 "<"
    | .isEqualTo => utf8 "=="
    | .isNotEqualTo => utf8 "!="
    | _ => op.lexeme
  | .logic => if op.kind = .and then utf8 "and" else utf8 "or"

/-- A node of a tree. -/
inductive Node where
  | program (statements : Program)
  | stmt (s : Stmt)
  | expr (e : Expr)
  deriving Repr

/-- The token that an expression goes by. -/
def Expr.base? : Expr → Option Token
  | .number t _ => some t
  | .string t _ => some t
  | .var t => some t
  | .operation _ _ op _ => some op
  | .hole => none

/-- The token that a statement goes by: its name, or its keyword. -/
def Stmt.base? : Stmt → Option Token
  | .create name _ => some name
  | .assign name _ => some name
  | .print keyword _ => some keyword
  | .branch keyword _ _ _ => some keyword
  | .loop keyword _ _ => some keyword
  | .hole => none

/-- The token that a program goes by: that of its first statement, or an end token at no place. -/
def Program.base? : Program → Option Token
  | [] => some (Token.endAt ⟨0, 0⟩)
  | s :: _ => s.base?

namespace Node

/-- The token that a node goes by. -/
def base? : Node → Option Token
  | .program p => Program.base? p
  | .stmt s => s.base?
  | .expr e => e.base?

/-- Whether the node is missing. -/
def isHole : Node → Bool
  | .stmt .hole => true
  | .expr .hole => true
  | _ => false

/-- The name of the kind of node. -/
def label : Node → Text
  | .program _ => utf8 "Program"
  | .stmt (.create _ _) => utf8 "VarDecl"
  | .stmt (.assign _ _) => utf8 "Assign"
  | .stmt (.print _ _) => utf8 "Print"
  | .stmt (.branch _ _ _ _) => utf8 "If"
  | .stmt (.loop _ _ _) => utf8 "While"
  | .expr (.number _ _) => utf8 "Number"
  | .expr (.string _ _) => utf8 "String"
  | .expr (.var _) => utf8 "Var"
  | .expr (.operation .arithmetic _ _ _) => utf8 "Binary"
  | .expr (.operation .comparison _ _ _) => utf8 "Compare"
  | .expr (.operation .logic _ _ _) => utf8 "Logical"
  | .stmt .hole | .expr .hole => []

end Node

/-- The nodes of an expression, each before its operands. -/
def Expr.walk : Expr → List Node
  | e@(.operation _ left _ right) => .expr e :: (left.walk ++ right.walk)
  | e => [.expr e]

mutual

/-- The nodes of a statement, each before its parts. -/
def Stmt.walk : Stmt → List Node
  | s@(.create _ value) => .stmt s :: value.walk
  | s@(.assign _ value) => .stmt s :: value.walk
  | s@(.print _ value) => .stmt s :: value.walk
  | s@(.branch _ cond yes no) =>
    .stmt s :: (cond.walk ++ walkBlock yes ++
      match no with
      | none => []
      | some body => walkBlock body)
  | s@(.loop _ cond body) => .stmt s :: (cond.walk ++ walkBlock body)
  | .hole => [.stmt .hole]

/-- The nodes of the statements of a block. -/
def walkBlock : List Stmt → List Node
  | [] => []
  | s :: rest => s.walk ++ walkBlock rest

end

/-- The nodes of a program, the program itself first. -/
def Program.walk (p : Program) : List Node :=
  .program p :: walkBlock p

/-- A node in an outline: its label and its place. -/
def Node.entry? (n : Node) : Option Text :=
  n.base?.map fun t => n.label ++ utf8 " " ++ Text.ofInt t.pos.line ++ utf8 ":" ++ Text.ofInt t.pos.column

/-- The entries of all nodes, if none is missing. -/
def outline? (nodes : List Node) : Option (List Text) :=
  nodes.mapM Node.entry?

end EnglishScript
