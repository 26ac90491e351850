import EnglishScript.Python.Statement

namespace EnglishScript.Python

/-- Why a text is no Python module, and how far it was read. -/
structure Invalid where
  spot : Spot
  reason : Text
  deriving DecidableEq, Repr

namespace Invalid

/-- The report of the checker. -/
def report (e : Invalid) : Text :=
  utf8 "\n  File \"<ebpl>\", line " ++ Text.ofNat e.spot.line ++ utf8 ", offset " ++ Text.ofNat e.spot.offset
    ++ utf8 "\n    " ++ e.spot.text ++ utf8 "\n\nSyntaxError: " ++ shown e.reason

/-- The message of the error. -/
def message (e : Invalid) : Text :=
  utf8 "generated code is not valid python: " ++ e.report

end Invalid

/-- The error at a refused symbol: a flaw has its own reason, else an earlier complaint is the reason. -/
def Refusal.invalid (r : Refusal) : Invalid :=
  match r.symbol.lexis with
  | .flaw reason => ⟨r.symbol.spot, reason⟩
  | _ => ⟨r.symbol.spot, r.complaint.getD (utf8 "invalid syntax")⟩

/-- The number of statements of a Python module. A complaint counts at the end of the text. -/
def check (source : Text) : Except Invalid Nat :=
  let symbols := Python.symbols source
  let fuel := symbols.length + 1
  let expressions := Expression.reader fuel fuel
  match (Statement.file (Statement.reader fuel expressions fuel) fuel).run ⟨symbols, none⟩ with
  | .error refusal => .error refusal.invalid
  | .ok (count, cursor) =>
    match cursor.complaint with
    | some reason => .error ⟨cursor.head.spot, reason⟩
    | none => .ok count

/-- How a text is checked as a Python module: the number of its statements, or why it is none. What does not depend on
it is stated for any checker. -/
class Checker where
  verdict : Text → Except Invalid Nat

instance : Checker := ⟨check⟩

end EnglishScript.Python
