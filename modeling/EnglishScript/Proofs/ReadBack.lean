import EnglishScript.Python.Symbol
import EnglishScript.Proofs.NormalForm
import EnglishScript.Proofs.NumberText
import EnglishScript.Proofs.SourceTree

namespace EnglishScript

namespace ReadBack

/-- The rest of a list behind a given beginning. -/
def strip {α : Type} [BEq α] (front s : List α) : Option (List α) :=
  if front.isPrefixOf s then some (s.drop front.length) else none

/-- A token at no place. -/
def token (kind : Kind) (lexeme : Text) : Token :=
  ⟨kind, lexeme, ⟨0, 0⟩⟩

/-- The operators by their symbols. -/
def operators : List (Text × Form × Kind) :=
  [(utf8 "+", .arithmetic, .plus), (utf8 "-", .arithmetic, .minus), (utf8 "*", .arithmetic, .multiply),
    (utf8 "/", .arithmetic, .divide), (utf8 ">", .comparison, .isGreaterThan), (utf8 "<", .comparison, .isLessThan),
    (utf8 "==", .comparison, .isEqualTo), (utf8 "!=", .comparison, .isNotEqualTo), (utf8 "and", .logic, .and),
    (utf8 "or", .logic, .or)]

/-- An operator with a space on either side, at the start of a text. -/
def operator (s : Text) : Option (Form × Token × Text) := do
  let s ← strip [Text.space] s
  let symbol := s.takeWhile (· != Text.space)
  let (form, kind) ← operators.lookup symbol
  let s ← strip [Text.space] (s.drop symbol.length)
  pure (form, token kind symbol, s)

/-- A string literal whose opening quote stands before the text; a backslash protects the byte behind it. -/
def literal (s : Text) : Option (Expr × Text) := do
  let n ← Python.Scan.closing Text.quote s
  pure (.string (token .string (s.take n)) (s.take n), s.drop (n + 1))

/-- A number at the start of a text. -/
def number (s : Text) : Option (Expr × Text) := do
  let lexeme := s.takeWhile Text.isNumeric
  let value ← (readFloat lexeme).toOption
  pure (.number (token .number []) value, s.drop lexeme.length)

/-- A name at the start of a text. -/
def name (s : Text) : Expr × Text :=
  let lexeme := s.takeWhile Text.isWord
  (.var (token .identifier lexeme), s.drop lexeme.length)

/-- An expression at the start of a text, nested less deep than `fuel`, and the text behind it. -/
def expression : Nat → Text → Option (Expr × Text)
  | 0, _ => none
  | _ + 1, [] => none
  | fuel + 1, c :: s =>
    if c = 40 then do
      let (left, s) ← expression fuel s
      let (form, op, s) ← operator s
      let (right, s) ← expression fuel s
      let s ← strip (utf8 ")") s
      pure (.operation form left op right, s)
    else if c = Text.quote then literal s
    else if Text.isDigit c then number (c :: s)
    else if Text.isAlpha c then some (name (c :: s))
    else none

/-- The expression that a text is, but for the given end. -/
def closed (ending s : Text) : Option Expr := do
  let (e, s) ← expression s.length s
  if s = ending then some e else none

/-- What a line says without its indentation. -/
inductive Head where
  | pass
  | otherwise
  | assign (name : Token) (value : Expr)
  | print (value : Expr)
  | branch (cond : Expr)
  | loop (cond : Expr)

/-- A line: how deep it is nested, and what it says. -/
structure Row where
  depth : Nat
  head : Head

/-- What the text of a line says. -/
def head (t : Text) : Option Head :=
  match strip (utf8 "print(") t, strip (utf8 "if ") t, strip (utf8 "while ") t with
  | some s, _, _ => (closed (utf8 ")") s).map .print
  | none, some s, _ => (closed (utf8 ":") s).map .branch
  | none, none, some s => (closed (utf8 ":") s).map .loop
  | none, none, none =>
    if t = utf8 "pass" then some .pass
    else if t = utf8 "else:" then some .otherwise
    else do
      let lexeme := t.takeWhile Text.isWord
      let s ← strip (utf8 " = ") (t.drop lexeme.length)
      (closed [] s).map (.assign (token .identifier lexeme))

/-- A line with its depth. -/
def row (t : Text) : Option Row :=
  let blanks := (t.takeWhile (· == Text.space)).length
  if blanks % 4 = 0 then (head (t.drop blanks)).map (⟨blanks / 4, ·⟩) else none

/-- A suite at a depth, given what its rows are as statements. -/
def suite (depth : Nat) (rows : List Row) (statements : Option (List Stmt)) : Option (List Stmt) :=
  match rows with
  | [] => none
  | [⟨d, .pass⟩] => if d = depth then some [] else none
  | _ => statements

/-- Whether the rows start with an `else` at the depth. -/
def startsElse (depth : Nat) : List Row → Bool
  | ⟨d, .otherwise⟩ :: _ => d == depth
  | _ => false

/-- The statements of the rows at a depth. The deeper rows behind a head are its suite. -/
def statements (depth : Nat) (rows : List Row) : Option (List Stmt) :=
  match rows with
  | [] => some []
  | r :: rest =>
    let inner := rest.takeWhile fun r => depth < r.depth
    let after := rest.dropWhile fun r => depth < r.depth
    if r.depth = depth then
      match r.head with
      | .pass => none
      | .otherwise => none
      | .assign name value => (statements depth rest).map (.assign name value :: ·)
      | .print value => (statements depth rest).map (.print (token .print []) value :: ·)
      | .loop cond => do
        let body ← suite (depth + 1) inner (statements (depth + 1) inner)
        let more ← statements depth after
        pure (.loop (token .while []) cond body :: more)
      | .branch cond => do
        let yes ← suite (depth + 1) inner (statements (depth + 1) inner)
        if startsElse depth after then
          let innerElse := after.tail.takeWhile fun r => depth < r.depth
          let no ← suite (depth + 1) innerElse (statements (depth + 1) innerElse)
          let more ← statements depth (after.tail.dropWhile fun r => depth < r.depth)
          pure (.branch (token .if []) cond yes (some no) :: more)
        else
          let more ← statements depth after
          pure (.branch (token .if []) cond yes none :: more)
    else none
termination_by rows.length
decreasing_by
  all_goals simp only [List.length_cons]
  all_goals apply Nat.lt_succ_of_le
  · exact Nat.le_refl _
  · exact Nat.le_refl _
  · exact (List.takeWhile_sublist _).length_le
  · exact (List.dropWhile_sublist _).length_le
  · exact (List.takeWhile_sublist _).length_le
  · exact ((List.takeWhile_sublist _).trans ((List.tail_sublist _).trans (List.dropWhile_sublist _))).length_le
  · exact ((List.dropWhile_sublist _).trans ((List.tail_sublist _).trans (List.dropWhile_sublist _))).length_le
  · exact (List.dropWhile_sublist _).length_le

/-- The program that a generated text stands for. -/
def program (text : Text) : Option Program := do
  let lines ← strip Python.header (Text.splitLines text).dropLast
  let rows ← lines.mapM row
  statements 0 rows

end ReadBack

end EnglishScript
