import EnglishScript.Python.Reader

namespace EnglishScript.Python

/-- What an expression is as the target of an assignment. -/
inductive Shape where
  | target
  | keyword
  | literal
  | operator
  | call
  | comparison
  | conditional
  | lambda
  | generator
  | yield
  | listComprehension
  | setComprehension
  | dictComprehension
  | ellipsis
  | sequence (items : List Shape)
  deriving Repr

namespace Shape

/-- The name of a shape that cannot be assigned to. -/
def fixedName? : Shape → Option Text
  | .target => none
  | .keyword => some (utf8 "keyword")
  | .literal => some (utf8 "literal")
  | .operator => some (utf8 "operator")
  | .call => some (utf8 "function call")
  | .comparison => some (utf8 "comparison")
  | .conditional => some (utf8 "conditional expression")
  | .lambda => some (utf8 "lambda")
  | .generator => some (utf8 "generator expression")
  | .yield => some (utf8 "yield expression")
  | .listComprehension => some (utf8 "list comprehension")
  | .setComprehension => some (utf8 "set comprehension")
  | .dictComprehension => some (utf8 "dict comprehension")
  | .ellipsis => some (utf8 "Ellipsis")
  | .sequence items => firstFixed items
where
  /-- The name of the first item that cannot be assigned to. -/
  firstFixed : List Shape → Option Text
    | [] => none
    | s :: rest =>
      match fixedName? s with
      | some name => some name
      | none => firstFixed rest

end Shape

open Reader

namespace Expression

/-- Whether a symbol can start an expression. -/
def startsTest : Lexis → Bool
  | .name _ | .number | .string | .bytes => true
  | .keyword t => [utf8 "None", utf8 "True", utf8 "False", utf8 "not", utf8 "lambda"].contains t
  | .sign t => [utf8 "(", utf8 "[", utf8 "\x7b", utf8 "+", utf8 "-", utf8 "~", utf8 "..."].contains t
  | _ => false

/-- Whether a symbol can start an item that may be starred. -/
def startsItem (l : Lexis) : Bool :=
  startsTest l || l == mark "*"

/-- The operators of arithmetic and of bits. -/
def isBinary : Lexis → Bool
  | .sign t =>
    [utf8 "|", utf8 "^", utf8 "&", utf8 "<<", utf8 ">>", utf8 "+", utf8 "-", utf8 "*", utf8 "/", utf8 "%", utf8 "//",
      utf8 "**"].contains t
  | _ => false

/-- The operators before an operand. -/
def isUnary (l : Lexis) : Bool :=
  l == mark "+" || l == mark "-" || l == mark "~"

/-- The comparison signs. -/
def isComparison : Lexis → Bool
  | .sign t =>
    [utf8 "<", utf8 ">", utf8 "==", utf8 ">=", utf8 "<=", utf8 "<>", utf8 "!="].contains t
  | _ => false

/-- Items with commas between them, and whether there was a comma. -/
def items (item : Reader Shape) (starts : Lexis → Bool) : Nat → Reader (List Shape × Bool)
  | 0 => refuse
  | fuel + 1 => do
    let first ← item
    if ← accept (mark ",") then
      if starts (← peek) then
        let (rest, _) ← items item starts fuel
        return (first :: rest, true)
      else return ([first], true)
    else return ([first], false)

/-- One item stands for itself; commas make a sequence. -/
def sequenceOf : List Shape × Bool → Shape
  | ([s], false) => s
  | (shapes, _) => .sequence shapes

/-- Operands with operators between them; `operator` goes over an operator if one comes next. -/
def chain (operand : Reader Shape) (operator : Reader Bool) (whole : Shape) (fuel : Nat) : Reader Shape := do
  let first ← operand
  if ← operator then
    let _ ← operand
    loop (do
      if ← operator then
        let _ ← operand
        return true
      else return false) fuel
    return whole
  else return first

/-- Goes over a symbol of a class, and tells whether there was one. -/
def acceptIf (is : Lexis → Bool) : Reader Bool := do
  if is (← peek) then
    advance
    return true
  else return false

/-- Arithmetic. -/
def arithmetic (fuel : Nat) (operand : Reader Shape) : Reader Shape :=
  chain operand (acceptIf isBinary) .operator fuel

/-- Goes over a comparison operator, which may be one or two words. -/
def comparisonOperator : Reader Bool := do
  if ← acceptIf isComparison then return true
  else if ← accept (word "in") then return true
  else if ← accept (word "is") then
    let _ ← accept (word "not")
    return true
  else if ← accept (word "not") then
    expect (word "in")
    return true
  else return false

/-- Arithmetic with comparisons. -/
def comparison (fuel : Nat) (operand : Reader Shape) : Reader Shape :=
  chain (arithmetic fuel operand) comparisonOperator .comparison fuel

/-- A comparison behind any number of `not`. -/
def negation (fuel : Nat) (operand : Reader Shape) : Reader Shape := do
  if ← accept (word "not") then
    loop (accept (word "not")) fuel
    let _ ← comparison fuel operand
    return .operator
  else comparison fuel operand

/-- Goes over `and` or `or`. -/
def logicalOperator : Reader Bool :=
  acceptIf fun l => l == word "and" || l == word "or"

/-- Comparisons with `and` and `or`. -/
def disjunction (fuel : Nat) (operand : Reader Shape) : Reader Shape :=
  chain (negation fuel operand) logicalOperator .operator fuel

/-- The readers of operands and of whole expressions that stand inside another one. -/
structure Inner where
  operand : Reader Shape
  test : Reader Shape

section Nested

variable (fuel : Nat) (inner : Inner)

/-- Whether a symbol can start a parameter. -/
def startsParameter : Lexis → Bool
  | .name _ => true
  | l => l == mark "*" || l == mark "**"

/-- An annotation of a parameter. -/
def annotation : Reader Unit := do
  if ← accept (mark ":") then
    let _ ← inner.test

/-- A parameter, which may have an annotation if `annotated`. -/
def parameter (annotated : Bool) : Reader Shape := do
  let note : Reader Unit := if annotated then annotation inner else pure ()
  if ← accept (mark "*") then
    match ← peek with
    | .name _ =>
      advance
      note
    | _ => pure ()
  else if ← accept (mark "**") then
    expectName
    note
  else
    expectName
    note
    if ← accept (mark "=") then
      let _ ← inner.test
  return .target

/-- The parameters of a function, if it has any. -/
def parameters (annotated : Bool) : Reader Unit := do
  if startsParameter (← peek) then
    let _ ← items (parameter inner annotated) startsParameter fuel

/-- The parameters and the body of a function without a name. -/
def lambdaRest : Reader Shape := do
  parameters fuel inner false
  expect (mark ":")
  let _ ← inner.test
  return .lambda

/-- What follows a `yield`; it may be nothing. -/
def yieldRest : Reader Shape := do
  if ← accept (word "from") then
    let _ ← inner.test
  else if startsTest (← peek) then
    let _ ← items inner.test startsTest fuel
  return .yield

/-- An item that may be starred. -/
def item : Reader Shape := do
  if ← accept (mark "*") then
    let _ ← arithmetic fuel inner.operand
    return .target
  else inner.test

/-- A target of a `for`. -/
def loopTarget : Reader Shape := do
  if ← accept (mark "*") then
    let _ ← arithmetic fuel inner.operand
    return .target
  else arithmetic fuel inner.operand

/-- Complains if a shape cannot be assigned to. -/
def assignTo (shape : Shape) : Reader Unit :=
  match shape.fixedName? with
  | some name => complain (utf8 "can't assign to " ++ name)
  | none => pure ()

/-- A clause `for … in …`. -/
def forClause : Reader Unit := do
  expect (word "for")
  let targets ← items (loopTarget fuel inner) startsItem fuel
  assignTo (sequenceOf targets)
  expect (word "in")
  let _ ← disjunction fuel inner.operand

/-- The condition of a clause `if`. -/
def condition : Reader Unit := do
  if ← accept (word "lambda") then
    let _ ← lambdaRest fuel inner
  else
    let _ ← disjunction fuel inner.operand

/-- The clauses of a comprehension. -/
def clauses : Reader Unit := do
  forClause fuel inner
  loop (do
    if (← peek) = word "for" then
      forClause fuel inner
      return true
    else if ← accept (word "if") then
      condition fuel inner
      return true
    else return false) fuel

/-- What stands in parentheses, up to the closing one. -/
def inParentheses : Reader Shape := do
  if ← accept (mark ")") then return .sequence []
  else if ← accept (word "yield") then
    let shape ← yieldRest fuel inner
    expect (mark ")")
    return shape
  else
    let first ← item fuel inner
    if (← peek) = word "for" then
      clauses fuel inner
      expect (mark ")")
      return .generator
    else if ← accept (mark ",") then
      if startsItem (← peek) then
        let (rest, _) ← items (item fuel inner) startsItem fuel
        expect (mark ")")
        return .sequence (first :: rest)
      else
        expect (mark ")")
        return .sequence [first]
    else
      expect (mark ")")
      return first

/-- What stands in square brackets, up to the closing one. -/
def inSquares : Reader Shape := do
  if ← accept (mark "]") then return .sequence []
  else
    let first ← item fuel inner
    if (← peek) = word "for" then
      clauses fuel inner
      expect (mark "]")
      return .listComprehension
    else if ← accept (mark ",") then
      if startsItem (← peek) then
        let (rest, _) ← items (item fuel inner) startsItem fuel
        expect (mark "]")
        return .sequence (first :: rest)
      else
        expect (mark "]")
        return .sequence [first]
    else
      expect (mark "]")
      return .sequence [first]

/-- An entry of a dictionary. -/
def entry : Reader Shape := do
  let _ ← inner.test
  expect (mark ":")
  let _ ← inner.test
  return .literal

/-- What stands in braces, up to the closing one. -/
def inBraces : Reader Shape := do
  if ← accept (mark "\x7d") then return .literal
  else
    let _ ← inner.test
    let isDict ← accept (mark ":")
    if isDict then
      let _ ← inner.test
    if (← peek) = word "for" then
      clauses fuel inner
      expect (mark "\x7d")
      return if isDict then .dictComprehension else .setComprehension
    else
      if ← accept (mark ",") then
        if startsTest (← peek) then
          let _ ← items (if isDict then entry inner else inner.test) startsTest fuel
      expect (mark "\x7d")
      return .literal

/-- What stands behind an opening bracket. -/
def bracketed (opening : Text) : Reader Shape :=
  if opening = utf8 "(" then inParentheses fuel inner
  else if opening = utf8 "[" then inSquares fuel inner
  else inBraces fuel inner

/-- A name, a literal, or something in brackets. -/
def atom : Reader Shape := do
  match ← peek with
  | .name _ =>
    advance
    return .target
  | .number =>
    advance
    return .literal
  | .string =>
    advance
    loop (accept .string) fuel
    return .literal
  | .bytes =>
    advance
    loop (accept .bytes) fuel
    return .literal
  | .keyword t =>
    if [utf8 "None", utf8 "True", utf8 "False"].contains t then
      advance
      return .keyword
    else refuse
  | .sign t =>
    if t = utf8 "..." then
      advance
      return .ellipsis
    else if [utf8 "(", utf8 "[", utf8 "\x7b"].contains t then
      advance
      bracketed fuel inner t
    else refuse
  | _ => refuse

/-- An argument of a call: a value, a named value, or a comprehension. -/
def argument : Reader Unit := do
  if ← accept (mark "*") then
    let _ ← inner.test
  else if ← accept (mark "**") then
    let _ ← inner.test
  else
    let _ ← inner.test
    if ← accept (mark "=") then
      let _ ← inner.test
    else if (← peek) = word "for" then clauses fuel inner
    else pure ()

/-- The arguments of a call up to its closing parenthesis. -/
def arguments : Reader Unit := do
  if ← accept (mark ")") then pure ()
  else
    argument fuel inner
    loop (do
      if ← accept (mark ",") then
        if (← peek) = mark ")" then return false
        else
          argument fuel inner
          return true
      else return false) fuel
    expect (mark ")")

/-- An expression that may be missing. -/
def optionalTest : Reader Unit := do
  if startsTest (← peek) then
    let _ ← inner.test

/-- A subscript: a value or a slice. -/
def subscript : Reader Shape := do
  optionalTest inner
  if ← accept (mark ":") then
    optionalTest inner
    if ← accept (mark ":") then optionalTest inner
  return .target

/-- Whether a symbol can start a subscript. -/
def startsSubscript (l : Lexis) : Bool :=
  startsTest l || l == mark ":"

/-- Calls, subscripts and attributes behind an atom. -/
def trailers : Nat → Shape → Reader Shape
  | 0, shape => return shape
  | n + 1, shape => do
    if ← accept (mark "(") then
      arguments fuel inner
      trailers n .call
    else if ← accept (mark "[") then
      if startsSubscript (← peek) then
        let _ ← items (subscript inner) startsSubscript fuel
        expect (mark "]")
        trailers n .target
      else refuse
    else if ← accept (mark ".") then
      expectName
      trailers n .target
    else return shape

/-- An operand: an atom with its trailers, behind any signs. -/
def operandWith : Reader Shape := do
  if ← acceptIf isUnary then
    loop (acceptIf isUnary) fuel
    let base ← atom fuel inner
    let _ ← trailers fuel inner fuel base
    return .operator
  else
    let base ← atom fuel inner
    trailers fuel inner fuel base

/-- An expression over a reader of its operands. -/
def testWith (operand : Reader Shape) : Reader Shape := do
  if ← accept (word "lambda") then lambdaRest fuel inner
  else
    let shape ← disjunction fuel operand
    if ← accept (word "if") then
      let _ ← disjunction fuel operand
      expect (word "else")
      let _ ← inner.test
      return .conditional
    else return shape

end Nested

/-- The readers for a given depth of nesting; what is nested deeper is refused. -/
def reader (fuel : Nat) : Nat → Inner
  | 0 => ⟨refuse, refuse⟩
  | depth + 1 =>
    let inner := reader fuel depth
    let operand := operandWith fuel inner
    ⟨operand, testWith fuel inner operand⟩

end Expression

end EnglishScript.Python
