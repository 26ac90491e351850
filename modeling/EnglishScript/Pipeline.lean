import EnglishScript.Token.Lexer
import EnglishScript.Tree.Parser
import EnglishScript.Python.Source

namespace EnglishScript

/-- Why a source has no tree. -/
inductive SourceError where
  | lex (e : LexError)
  | parse (e : ParseError)
  deriving DecidableEq, Repr

namespace SourceError

/-- The message without the stage. -/
def reason : SourceError → Text
  | .lex e => e.message
  | .parse e => e.message

/-- The message with the stage. -/
def message : SourceError → Text
  | .lex e => utf8 "lex: " ++ e.message
  | .parse e => utf8 "parse: " ++ e.message

end SourceError

/-- The program of a source. -/
def parseSource (source : Text) : Except SourceError Program :=
  match lex source with
  | .error e => .error (.lex e)
  | .ok tokens =>
    match parseProgram tokens with
    | .error e => .error (.parse e)
    | .ok p => .ok p

/-- The Python text of a source. -/
def compile (source : Text) : Except SourceError Text :=
  (parseSource source).map Program.python

end EnglishScript
