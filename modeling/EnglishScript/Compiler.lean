import EnglishScript.Pipeline
import EnglishScript.Tree.Listing
import EnglishScript.Text.Blank
import EnglishScript.Python.Check

namespace EnglishScript

/-- Why a compilation failed. -/
inductive CompileError where
  | emptySource
  | source (e : SourceError)
  | python (e : Python.Invalid)
  deriving DecidableEq, Repr

namespace CompileError

/-- The message of the error; the stage shows only in its text. -/
def message : CompileError → Text
  | .emptySource => utf8 "source code is required"
  | .source e => e.reason
  | .python e => e.message

end CompileError

/-- What a caller of the compiler sees. -/
structure CompileResult where
  success : Bool
  tokens : List Text
  statements : List Text
  code : Text
  error : Text
  errors : List Text
  deriving DecidableEq, Repr

/-- A compiler with the artifacts of its last compilation. -/
structure Compiler where
  verify : Bool
  tokens : List Token
  program : Option Program
  code : Text
  errors : List Text
  deriving Repr

/-- The lines of a token listing, without line ends and the end token. -/
def tokenLines (tokens : List Token) : List Text :=
  (tokens.filter fun t => t.kind ≠ .newline && t.kind ≠ .eof).map Token.display

/-- The summary of the statements, numbered from `n`. -/
def summaryFrom (n : Nat) : Program → List Text
  | [] => []
  | s :: rest => (utf8 "Statement " ++ Text.ofNat n ++ utf8 ": " ++ s.listing) :: summaryFrom (n + 1) rest

namespace Compiler

/-- A compiler that has compiled nothing yet. -/
def new (verify : Bool) : Compiler := ⟨verify, [], none, [], []⟩

/-- The token listing of the last compilation. -/
def tokensDisplay (c : Compiler) : List Text :=
  tokenLines c.tokens

/-- The summary of the statements of the last compilation. -/
def astDisplay (c : Compiler) : List Text :=
  match c.program with
  | none => [utf8 "No AST generated"]
  | some p => summaryFrom 1 p

/-- Ends a compilation with an error, which is added to the errors so far. -/
def fail (c : Compiler) (e : CompileError) : CompileResult × Compiler :=
  let c := { c with errors := c.errors ++ [e.message] }
  (⟨false, [], [], [], e.message, c.errors⟩, c)

/-- Ends a compilation with its code. -/
def succeed (c : Compiler) (code : Text) : CompileResult × Compiler :=
  let c := { c with code := code }
  (⟨true, c.tokensDisplay, c.astDisplay, code, [], []⟩, c)

/-- Generates the code of a program and checks it if the compiler is to do so. -/
def emit [Python.Checker] (c : Compiler) (p : Program) : CompileResult × Compiler :=
  let c := { c with program := some p }
  let code := Program.python p
  if c.verify then
    match Python.Checker.verdict code with
    | .error e => c.fail (.python e)
    | .ok _ => c.succeed code
  else c.succeed code

/-- Compiles a source. The first error of any stage ends the compilation. -/
def compile [Python.Checker] (c : Compiler) (source : Text) : CompileResult × Compiler :=
  let c := Compiler.new c.verify
  if source.isBlank then c.fail .emptySource
  else
    match lex source with
    | .error e => c.fail (.source (.lex e))
    | .ok tokens =>
      let c := { c with tokens := tokens }
      match parseProgram tokens with
      | .error e => c.fail (.source (.parse e))
      | .ok p => c.emit p

end Compiler

end EnglishScript
