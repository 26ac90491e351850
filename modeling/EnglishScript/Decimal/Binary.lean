namespace EnglishScript

/-- A binary fraction: `mantissa * 2 ^ exponent` with a sign. The numbers just below a `boundary` lie twice as close
as those just above it. -/
structure Binary where
  negative : Bool
  mantissa : Nat
  exponent : Int
  boundary : Bool
  deriving DecidableEq, Repr

/-- What the bits of a floating-point number stand for. -/
inductive Reading where
  | nan
  | infinite (negative : Bool)
  | finite (value : Binary)
  deriving DecidableEq, Repr

/-- Reads the sign, the exponent and the fraction of a floating-point number. -/
def Reading.ofFloat (f : Float) : Reading :=
  let bits : Nat := f.toBits.toNat
  let negative := bits / Nat.pow 2 63 == 1
  let exponent : Nat := bits / Nat.pow 2 52 % Nat.pow 2 11
  let fraction : Nat := bits % Nat.pow 2 52
  if exponent = Nat.pow 2 11 - 1 then
    if fraction = 0 then .infinite negative else .nan
  else if exponent = 0 then .finite ⟨negative, fraction, -1074, false⟩
  else .finite ⟨negative, Nat.pow 2 52 + fraction, (exponent : Int) - 1075, fraction = 0 && exponent ≠ 1⟩

namespace Binary

/-- The factor by which the mantissa is multiplied. -/
def scaleUp (b : Binary) : Nat := Nat.pow 2 b.exponent.toNat

/-- The divisor of the scaled mantissa. -/
def scaleDown (b : Binary) : Nat := Nat.pow 2 (-b.exponent).toNat

/-- The nearest whole number to the value, a half going away from zero. -/
def nearestInt (b : Binary) : Int :=
  let magnitude := (2 * b.mantissa * b.scaleUp + b.scaleDown) / (2 * b.scaleDown)
  if b.negative then -(magnitude : Int) else magnitude

end Binary

end EnglishScript
