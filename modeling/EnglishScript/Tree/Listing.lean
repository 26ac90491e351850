import EnglishScript.Tree
import EnglishScript.Decimal.Layout

namespace EnglishScript

namespace Listing

/-- The parts that are not empty, with single spaces between them. -/
def spaced (parts : List Text) : Text :=
  Text.join (utf8 " ") (parts.filter fun t => !t.isEmpty)

/-- The parts in parentheses. -/
def group (parts : List Text) : Text :=
  utf8 "(" ++ spaced parts ++ utf8 ")"

end Listing

open Listing

/-- An expression as a listing. -/
def Expr.listing : Expr → Text
  | .number _ value => listingFloat value
  | .string _ value => [Text.quote] ++ value ++ [Text.quote]
  | .var name => name.lexeme
  | .operation form left op right => group [form.symbol op, left.listing, right.listing]
  | .hole => []

mutual

/-- A statement as a listing. -/
def Stmt.listing : Stmt → Text
  | .create name value => group [utf8 "create", name.lexeme, value.listing]
  | .assign name value => group [utf8 "set", name.lexeme, value.listing]
  | .print _ value => group [utf8 "print", value.listing]
  | .branch _ cond yes no =>
    group ([utf8 "if", cond.listing, group (utf8 "then" :: listBlock yes)] ++
      match no with
      | none => []
      | some body => [group (utf8 "else" :: listBlock body)])
  | .loop _ cond body => group [utf8 "while", cond.listing, group (utf8 "do" :: listBlock body)]
  | .hole => []

/-- The listings of the statements of a block. -/
def listBlock : List Stmt → List Text
  | [] => []
  | s :: rest => s.listing :: listBlock rest

end

/-- A program as a listing. -/
def Program.listing (p : Program) : Text :=
  group (utf8 "program" :: listBlock p)

/-- Whether a node of the program is missing. -/
def Program.hasHole (p : Program) : Bool :=
  (Program.walk p).any Node.isHole

/-- A program as a listing, if no node is missing. -/
def Program.listing? (p : Program) : Option Text :=
  if Program.hasHole p then none else some (Program.listing p)

end EnglishScript
