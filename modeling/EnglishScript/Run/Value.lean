import EnglishScript.Decimal.Layout

namespace EnglishScript

/-- A value of a running program, as Python has them. Whole numbers arise only from arithmetic on truth values. -/
inductive Value where
  | float (f : Float)
  | int (n : Int)
  | str (s : Text)
  | bool (b : Bool)
  deriving DecidableEq, Repr

namespace Value

/-- What printing a value shows. -/
def text : Value → Text
  | .float f => pythonFloat f
  | .int n => Text.ofInt n
  | .str s => s
  | .bool b => if b then utf8 "True" else utf8 "False"

/-- Whether a value counts as true. -/
def truthy : Value → Bool
  | .float f => !(f == 0)
  | .int n => n != 0
  | .str s => !s.isEmpty
  | .bool b => b

/-- The name of the type of a value. -/
def typeName : Value → Text
  | .float _ => utf8 "float"
  | .int _ => utf8 "int"
  | .str _ => utf8 "str"
  | .bool _ => utf8 "bool"

/-- A number as the floating-point number to compute with, and whether it is one by type. -/
def number? : Value → Option (Float × Bool)
  | .float f => some (f, true)
  | .int n => some (Float.ofInt n, false)
  | .bool b => some (if b then 1 else 0, false)
  | .str _ => none

/-- The least whole number of 64 bits. -/
def minInt : Int := -(Nat.pow 2 63 : Int)

/-- The whole number nearest to a floating-point number; what does not fit 64 bits gives the least one. -/
def wholeOf (f : Float) : Int :=
  match Reading.ofFloat f with
  | .finite b => if minInt ≤ b.nearestInt && b.nearestInt < Nat.pow 2 63 then b.nearestInt else minInt
  | _ => minInt

/-- The result of arithmetic: a floating-point number if an operand was one, else a whole number. -/
def ofResult (f : Float) (isFloat : Bool) : Value :=
  if isFloat then .float f else .int (wholeOf f)

end Value

/-- The variables of a running program, in the order in which they were first set. -/
structure Env where
  bindings : List (Text × Value)
  deriving DecidableEq, Repr

namespace Env

/-- No variable is set. -/
def empty : Env := ⟨[]⟩

/-- The value of a variable. -/
def get? (env : Env) (name : Text) : Option Value :=
  env.bindings.lookup name

/-- The bindings with one variable set. -/
def setIn (name : Text) (v : Value) : List (Text × Value) → List (Text × Value)
  | [] => [(name, v)]
  | (n, w) :: rest => if n = name then (n, v) :: rest else (n, w) :: setIn name v rest

/-- The variables with one set. -/
def set (env : Env) (name : Text) (v : Value) : Env :=
  ⟨setIn name v env.bindings⟩

end Env

end EnglishScript
