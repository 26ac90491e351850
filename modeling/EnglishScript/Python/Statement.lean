import EnglishScript.Python.Expression

namespace EnglishScript.Python

open Reader Expression

namespace Statement

/-- The signs of assignments that also compute. -/
def isAugmented : Lexis → Bool
  | .sign t =>
    [utf8 "+=", utf8 "-=", utf8 "*=", utf8 "/=", utf8 "%=", utf8 "&=", utf8 "|=", utf8 "^=", utf8 "<<=", utf8 ">>=",
      utf8 "**=", utf8 "//="].contains t
  | _ => false

section Simple

variable (fuel : Nat) (e : Inner)

/-- Expressions with commas between them. -/
def testList : Reader Shape := do
  return sequenceOf (← items e.test startsTest fuel)

/-- Expressions with commas between them, which may be starred. -/
def starList : Reader Shape := do
  return sequenceOf (← items (item fuel e) startsItem fuel)

/-- The right side of an assignment. -/
def rightSide : Reader Shape := do
  if ← accept (word "yield") then yieldRest fuel e else starList fuel e

/-- The sides of an assignment behind the first one. -/
def moreSides : Nat → Reader (List Shape)
  | 0 => return []
  | n + 1 => do
    if ← accept (mark "=") then
      let next ← rightSide fuel e
      return next :: (← moreSides n)
    else return []

/-- Complains about the shapes that cannot be assigned to, in order. -/
def assignAll : List Shape → Reader Unit
  | [] => pure ()
  | shape :: rest => do
    assignTo shape
    assignAll rest

/-- An expression, or an assignment. -/
def expressionStatement : Reader Unit := do
  let shape ← starList fuel e
  if ← acceptIf isAugmented then
    if ← accept (word "yield") then
      let _ ← yieldRest fuel e
    else
      let _ ← testList fuel e
    assignTo shape
  else
    let sides ← moreSides fuel e fuel
    assignAll (shape :: sides).dropLast

/-- A list of expressions that may be missing. -/
def optionalList : Reader Unit := do
  if startsTest (← peek) then
    let _ ← testList fuel e

/-- Complains if a shape cannot be deleted. -/
def delete (shape : Shape) : Reader Unit :=
  match shape.fixedName? with
  | some name => complain (utf8 "can't delete " ++ name)
  | none => pure ()

/-- What follows `del`. -/
def deleteRest : Reader Unit := do
  delete (sequenceOf (← items (loopTarget fuel e) startsItem fuel))

/-- What follows `raise`. -/
def raiseRest : Reader Unit := do
  if startsTest (← peek) then
    let _ ← e.test
    if ← accept (word "from") then
      let _ ← e.test

/-- What follows `assert`. -/
def assertRest : Reader Unit := do
  let _ ← e.test
  if ← accept (mark ",") then
    let _ ← e.test

/-- A name with dots between its parts. -/
def dottedName : Reader Unit := do
  expectName
  loop (do
    if ← accept (mark ".") then
      expectName
      return true
    else return false) fuel

/-- Another name for what is imported. -/
def asName : Reader Unit := do
  if ← accept (word "as") then expectName

/-- What follows `import`. -/
def importRest : Reader Unit := do
  dottedName fuel
  asName
  loop (do
    if ← accept (mark ",") then
      dottedName fuel
      asName
      return true
    else return false) fuel

/-- A name in a list of imports. -/
def importedName : Reader Shape := do
  expectName
  asName
  return .target

/-- Whether a symbol is a name. -/
def isName : Lexis → Bool
  | .name _ => true
  | _ => false

/-- What follows `from`. -/
def fromRest : Reader Unit := do
  let dots ← acceptIf fun l => l == mark "." || l == mark "..."
  loop (acceptIf fun l => l == mark "." || l == mark "...") fuel
  if isName (← peek) then dottedName fuel
  else if !dots then refuse
  else pure ()
  expect (word "import")
  if ← accept (mark "*") then pure ()
  else if ← accept (mark "(") then
    let _ ← items importedName isName fuel
    expect (mark ")")
  else
    let (_, _) ← items importedName (fun _ => true) fuel
    pure ()

/-- Names with commas between them. -/
def nameList : Reader Unit := do
  expectName
  loop (do
    if ← accept (mark ",") then
      expectName
      return true
    else return false) fuel

/-- A statement that fits on a line. -/
def small : Reader Unit := do
  if ← accept (word "del") then deleteRest fuel e
  else if ← accept (word "pass") then pure ()
  else if ← accept (word "break") then pure ()
  else if ← accept (word "continue") then pure ()
  else if ← accept (word "return") then optionalList fuel e
  else if ← accept (word "raise") then raiseRest e
  else if ← accept (word "yield") then
    let _ ← yieldRest fuel e
  else if ← accept (word "import") then importRest fuel
  else if ← accept (word "from") then fromRest fuel
  else if ← accept (word "global") then nameList fuel
  else if ← accept (word "nonlocal") then nameList fuel
  else if ← accept (word "assert") then assertRest e
  else expressionStatement fuel e

/-- The statements of a line, at most `n` more, and their number. -/
def line : Nat → Reader Nat
  | 0 => refuse
  | n + 1 => do
    small fuel e
    if ← accept (mark ";") then
      if ← accept .newline then return 1
      else
        let count ← line n
        return count + 1
    else
      expect .newline
      return 1

end Simple

section Compound

variable (fuel : Nat) (e : Inner) (statement : Reader Nat)

/-- The body of a compound statement: a line behind the colon, or indented statements. -/
def suite : Reader Unit := do
  if ← accept .newline then
    expect .indent
    let _ ← statement
    loop (do
      if (← peek) = .dedent then return false
      else
        let _ ← statement
        return true) fuel
    expect .dedent
  else
    let _ ← line fuel e fuel

/-- A colon and a body. -/
def block : Reader Unit := do
  expect (mark ":")
  suite fuel e statement

/-- An `else` part, if there is one. -/
def elseBlock : Reader Unit := do
  if ← accept (word "else") then block fuel e statement

/-- What follows `if`. -/
def ifRest : Reader Unit := do
  let _ ← e.test
  block fuel e statement
  loop (do
    if ← accept (word "elif") then
      let _ ← e.test
      block fuel e statement
      return true
    else return false) fuel
  elseBlock fuel e statement

/-- What follows `while`. -/
def whileRest : Reader Unit := do
  let _ ← e.test
  block fuel e statement
  elseBlock fuel e statement

/-- What follows `for`. -/
def forRest : Reader Unit := do
  let targets ← items (loopTarget fuel e) startsItem fuel
  assignTo (sequenceOf targets)
  expect (word "in")
  let _ ← testList fuel e
  block fuel e statement
  elseBlock fuel e statement

/-- An `except` part, if there is one. -/
def exceptPart : Reader Bool := do
  if ← accept (word "except") then
    if startsTest (← peek) then
      let _ ← e.test
      asName
    block fuel e statement
    return true
  else return false

/-- What follows `try`. -/
def tryRest : Reader Unit := do
  block fuel e statement
  if ← exceptPart fuel e statement then
    loop (exceptPart fuel e statement) fuel
    elseBlock fuel e statement
    if ← accept (word "finally") then block fuel e statement
  else
    expect (word "finally")
    block fuel e statement

/-- An item of `with`. -/
def withItem : Reader Shape := do
  let _ ← e.test
  if ← accept (word "as") then
    assignTo (← arithmetic fuel e.operand)
  return .target

/-- What follows `with`. -/
def withRest : Reader Unit := do
  let _ ← items (withItem fuel e) (fun _ => true) fuel
  block fuel e statement

/-- What follows `def`. -/
def defRest : Reader Unit := do
  expectName
  expect (mark "(")
  parameters fuel e true
  expect (mark ")")
  if ← accept (mark "->") then
    let _ ← e.test
  block fuel e statement

/-- What follows `class`. -/
def classRest : Reader Unit := do
  expectName
  if ← accept (mark "(") then arguments fuel e
  block fuel e statement

/-- What follows the `@` of a decorator. -/
def decoratorRest : Reader Unit := do
  dottedName fuel
  if ← accept (mark "(") then arguments fuel e
  expect .newline
  loop (do
    if ← accept (mark "@") then
      dottedName fuel
      if ← accept (mark "(") then arguments fuel e
      expect .newline
      return true
    else return false) fuel
  if ← accept (word "def") then defRest fuel e statement
  else
    expect (word "class")
    classRest fuel e statement

/-- A statement over the readers of what it holds. -/
def statementWith : Reader Nat := do
  if ← accept (word "if") then
    ifRest fuel e statement
    return 1
  else if ← accept (word "while") then
    whileRest fuel e statement
    return 1
  else if ← accept (word "for") then
    forRest fuel e statement
    return 1
  else if ← accept (word "try") then
    tryRest fuel e statement
    return 1
  else if ← accept (word "with") then
    withRest fuel e statement
    return 1
  else if ← accept (word "def") then
    defRest fuel e statement
    return 1
  else if ← accept (word "class") then
    classRest fuel e statement
    return 1
  else if ← accept (mark "@") then
    decoratorRest fuel e statement
    return 1
  else line fuel e fuel

end Compound

/-- The reader of statements for a given depth of nesting; what is nested deeper is refused. -/
def reader (fuel : Nat) (e : Inner) : Nat → Reader Nat
  | 0 => refuse
  | depth + 1 => statementWith fuel e (reader fuel e depth)

/-- The statements up to the end of the file, at most `n` more, and their number. -/
def file (statement : Reader Nat) : Nat → Reader Nat
  | 0 => refuse
  | n + 1 => do
    if (← peek) = .endOfFile then return 0
    else if ← accept .newline then file statement n
    else
      let count ← statement
      let rest ← file statement n
      return count + rest

end Statement

end EnglishScript.Python
