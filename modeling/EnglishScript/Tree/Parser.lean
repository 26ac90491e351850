import EnglishScript.Tree.Draft

namespace EnglishScript

/-- What the expression being read is for. -/
inductive Goal where
  | create (name : Token)
  | assign (name : Token)
  | print (keyword : Token)
  | branch (keyword : Token)
  | loop (keyword : Token)
  deriving DecidableEq, Repr

/-- The statement in progress. -/
inductive Progress where
  | between
  | createVariable
  | createName
  | createWith (name : Token)
  | createValue (name : Token)
  | assignName
  | assignTo (name : Token)
  | reading (goal : Goal) (draft : Draft)
  | branchThen (keyword : Token) (cond : Expr)
  | loopDo (keyword : Token) (cond : Expr)
  | closing (word : Kind) (done : Stmt)
  deriving Repr

/-- A block that is not closed yet, with the statements before it, the newest first. -/
inductive OpenBlock where
  | yes (before : List Stmt) (keyword : Token) (cond : Expr)
  | no (before : List Stmt) (keyword : Token) (cond : Expr) (yes : List Stmt)
  | body (before : List Stmt) (keyword : Token) (cond : Expr)
  deriving Repr

/-- A program being read. The statements of the innermost block are kept newest first. -/
structure ParseState where
  blocks : List OpenBlock
  statements : List Stmt
  progress : Progress
  deriving Repr

namespace ParseState

/-- Nothing read yet. -/
def initial : ParseState := ⟨[], [], .between⟩

/-- The state with the statement in progress replaced. -/
def goOn (s : ParseState) (progress : Progress) : ParseState :=
  { s with progress := progress }

/-- The state with one more statement. -/
def add (s : ParseState) (stmt : Stmt) : ParseState :=
  { s with statements := stmt :: s.statements, progress := .between }

/-- The state after the expression for `goal` is complete. -/
def attain (s : ParseState) (goal : Goal) (e : Expr) : ParseState :=
  match goal with
  | .create name => s.add (.create name e)
  | .assign name => s.add (.assign name e)
  | .print keyword => s.add (.print keyword e)
  | .branch keyword => s.goOn (.branchThen keyword e)
  | .loop keyword => s.goOn (.loopDo keyword e)

/-- Completes the expression being read if the token does not belong to it. -/
def settle (s : ParseState) (t : Token) : ParseState :=
  match s.progress with
  | .reading goal draft =>
    match draft.finished? t with
    | some e => s.attain goal e
    | none => s
  | _ => s

/-- Goes on if the token has the kind that must come next. -/
def require (kind : Kind) (t : Token) (next : ParseState) : Except ParseError ParseState :=
  if t.kind = kind then .ok next else .error (.unexpected (.kind kind) t)

/-- Closes the innermost block at its `end`; the word that repeats its keyword must follow. -/
def close (s : ParseState) (t : Token) : Except ParseError ParseState :=
  match s.blocks with
  | .yes before keyword cond :: outer =>
    .ok ⟨outer, before, .closing .if (.branch keyword cond s.statements.reverse none)⟩
  | .no before keyword cond yes :: outer =>
    .ok ⟨outer, before, .closing .if (.branch keyword cond yes (some s.statements.reverse))⟩
  | .body before keyword cond :: outer =>
    .ok ⟨outer, before, .closing .while (.loop keyword cond s.statements.reverse)⟩
  | [] => .error (.unexpected .statement t)

/-- Goes over to the other branch at an `else`. -/
def turn (s : ParseState) (t : Token) : Except ParseError ParseState :=
  match s.blocks with
  | .yes before keyword cond :: outer => .ok ⟨.no before keyword cond s.statements.reverse :: outer, [], .between⟩
  | _ => .error (.unexpected .statement t)

/-- Reads a token where a statement may start. -/
def begin (s : ParseState) (t : Token) : Except ParseError ParseState :=
  match t.kind with
  | .newline => .ok s
  | .create => .ok (s.goOn .createVariable)
  | .set => .ok (s.goOn .assignName)
  | .print => .ok (s.goOn (.reading (.print t) .empty))
  | .if => .ok (s.goOn (.reading (.branch t) .empty))
  | .while => .ok (s.goOn (.reading (.loop t) .empty))
  | .end => s.close t
  | .else => s.turn t
  | _ => .error (.unexpected .statement t)

/-- Reads a token that belongs to the statement in progress or starts one. -/
def consume (s : ParseState) (t : Token) : Except ParseError ParseState :=
  match s.progress with
  | .between => s.begin t
  | .createVariable => require .variable t (s.goOn .createName)
  | .createName => require .identifier t (s.goOn (.createWith t))
  | .createWith name => require .with t (s.goOn (.createValue name))
  | .createValue name => require .value t (s.goOn (.reading (.create name) .empty))
  | .assignName => require .identifier t (s.goOn (.assignTo t))
  | .assignTo name => require .to t (s.goOn (.reading (.assign name) .empty))
  | .reading goal draft => (draft.step t).map fun d => s.goOn (.reading goal d)
  | .branchThen keyword cond => require .then t ⟨.yes s.statements keyword cond :: s.blocks, [], .between⟩
  | .loopDo keyword cond => require .do t ⟨.body s.statements keyword cond :: s.blocks, [], .between⟩
  | .closing word done => require word t (s.add done)

/-- Reads one token. -/
def step (s : ParseState) (t : Token) : Except ParseError ParseState :=
  (s.settle t).consume t

/-- The program, if it may end before the end token. -/
def finish (s : ParseState) (t : Token) : Except ParseError Program :=
  let s := s.settle t
  match s.progress, s.blocks with
  | .between, [] => .ok s.statements.reverse
  | .between, _ :: _ => .error (.unexpected (.kind .end) t)
  | _, _ => (s.consume t).bind fun _ => .error (.unexpected .statement t)

end ParseState

/-- An expression that has to be the whole input, apart from line ends behind it. -/
inductive WholeExpr where
  | reading (draft : Draft)
  | complete (e : Expr)
  deriving DecidableEq, Repr

namespace WholeExpr

/-- Completes the expression if the token does not belong to it. -/
def settle (w : WholeExpr) (t : Token) : WholeExpr :=
  match w with
  | .reading draft =>
    match draft.finished? t with
    | some e => .complete e
    | none => w
  | .complete _ => w

/-- Reads one token. -/
def step (w : WholeExpr) (t : Token) : Except ParseError WholeExpr :=
  match w.settle t with
  | .reading draft => (draft.step t).map .reading
  | .complete e => if t.kind = .newline then .ok (.complete e) else .error (.unexpected (.kind .eof) t)

/-- The expression, if it may end before the end token. -/
def finish (w : WholeExpr) (t : Token) : Except ParseError Expr :=
  match w.settle t with
  | .reading draft => (draft.step t).bind fun _ => .error (.unexpected .expression t)
  | .complete e => .ok e

end WholeExpr

/-- The end token of a token list: its first one, or else one on the line of the last token. -/
def endToken (tokens : List Token) : Token :=
  match tokens.find? fun t => t.kind = .eof with
  | some t => t
  | none =>
    match tokens.getLast? with
    | some last => Token.endAt ⟨last.pos.line, 1⟩
    | none => Token.endAt ⟨1, 1⟩

/-- The tokens before the first end token. -/
def bodyTokens (tokens : List Token) : List Token :=
  tokens.takeWhile fun t => t.kind ≠ .eof

/-- Reads the tokens up to the first end token as a program. -/
def parseProgram (tokens : List Token) : Except ParseError Program :=
  ((bodyTokens tokens).foldlM ParseState.step .initial).bind fun s => s.finish (endToken tokens)

/-- Reads the tokens up to the first end token as one expression. -/
def parseExpr (tokens : List Token) : Except ParseError Expr :=
  ((bodyTokens tokens).foldlM WholeExpr.step (.reading .empty)).bind fun w => w.finish (endToken tokens)

end EnglishScript
