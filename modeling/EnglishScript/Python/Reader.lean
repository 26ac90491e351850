import EnglishScript.Python.Symbol

namespace EnglishScript.Python

/-- Where a reader stands: the symbols ahead and the last complaint. -/
structure Cursor where
  symbols : List Symbol
  complaint : Option Text
  deriving DecidableEq, Repr

/-- The symbol that does not fit, with the last complaint before it. -/
structure Refusal where
  symbol : Symbol
  complaint : Option Text
  deriving DecidableEq, Repr

namespace Cursor

/-- The next symbol. -/
def head (c : Cursor) : Symbol :=
  c.symbols.headD ⟨.endOfFile, ⟨0, 0, []⟩⟩

end Cursor

/-- A reader of symbols. -/
abbrev Reader := StateT Cursor (Except Refusal)

namespace Reader

/-- The next symbol, which stays ahead. -/
def peek : Reader Lexis := fun c => .ok (c.head.lexis, c)

/-- Goes over the next symbol. -/
def advance : Reader Unit := fun c => .ok ((), { c with symbols := c.symbols.tail })

/-- Refuses the next symbol. -/
def refuse {α : Type} : Reader α := fun c => .error ⟨c.head, c.complaint⟩

/-- Complains about what has been read. -/
def complain (reason : Text) : Reader Unit := fun c => .ok ((), { c with complaint := some reason })

/-- Goes over the next symbol if it is the given one, and tells whether it was. -/
def accept (l : Lexis) : Reader Bool := fun c =>
  if c.head.lexis = l then .ok (true, { c with symbols := c.symbols.tail }) else .ok (false, c)

/-- Goes over the next symbol, which must be the given one. -/
def expect (l : Lexis) : Reader Unit := fun c =>
  if c.head.lexis = l then .ok ((), { c with symbols := c.symbols.tail }) else .error ⟨c.head, c.complaint⟩

/-- Goes over a name. -/
def expectName : Reader Unit := do
  match ← peek with
  | .name _ => advance
  | _ => refuse

/-- Repeats a reader while it says to go on, at most `fuel` times. -/
def loop (go : Reader Bool) : Nat → Reader Unit
  | 0 => pure ()
  | fuel + 1 => do
    if ← go then loop go fuel else pure ()

end Reader

/-- A keyword as a symbol. -/
abbrev word (s : String) : Lexis := .keyword (utf8 s)

/-- A sign as a symbol. -/
abbrev mark (s : String) : Lexis := .sign (utf8 s)

end EnglishScript.Python
