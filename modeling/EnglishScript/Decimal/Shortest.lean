import EnglishScript.Decimal.Binary
import EnglishScript.Text

namespace EnglishScript

/-- A positive decimal: its digits without trailing zeros, and the power of ten of the first digit. -/
structure Numeral where
  digits : Text
  lead : Int
  deriving DecidableEq, Repr

namespace Shortest

/-- A positive number `value / unit` with the decimals that round to it: those between `low / unit` and
`high / unit`, the ends themselves only if `closed`. -/
structure Target where
  value : Nat
  low : Nat
  high : Nat
  unit : Nat
  closed : Bool
  deriving DecidableEq, Repr

/-- The target of a nonzero binary number, in quarters of its last place. -/
def Target.ofBinary (b : Binary) : Target :=
  let step := b.scaleUp
  let value := 4 * b.mantissa * step
  { value := value
    low := value - (if b.boundary then step else 2 * step)
    high := value + 2 * step
    unit := 4 * b.scaleDown
    closed := b.mantissa % 2 == 0 }

/-- The number of decimal digits. -/
def digitCount (n : Nat) : Nat :=
  (Text.ofNat n).length

/-- The power of ten of the first digit of a positive fraction. -/
def leadingPower (num den : Nat) : Int :=
  if den ≤ num then (digitCount (num / den) : Int) - 1
  else -(digitCount ((den - 1) / num) : Int)

/-- `c * 10 ^ power` against `num / den`. -/
def compareGrid (c : Nat) (power : Int) (num den : Nat) : Ordering :=
  compare (c * Nat.pow 10 power.toNat * den) (num * Nat.pow 10 (-power).toNat)

/-- Whether `c * 10 ^ power` rounds to the target. -/
def Target.accepts (t : Target) (c : Nat) (power : Int) : Bool :=
  match compareGrid c power t.low t.unit, compareGrid c power t.high t.unit with
  | .gt, .lt => true
  | .eq, _ => t.closed
  | _, .eq => t.closed
  | _, _ => false

/-- The best of the target's two neighbours among the multiples of `10 ^ power`, if one rounds to it. -/
def Target.onGrid (t : Target) (power : Int) : Option Nat :=
  let below := t.value * Nat.pow 10 (-power).toNat / (t.unit * Nat.pow 10 power.toNat)
  match t.accepts below power, t.accepts (below + 1) power with
  | true, true =>
    match compareGrid (2 * below + 1) power (2 * t.value) t.unit with
    | .gt => some below
    | .lt => some (below + 1)
    | .eq => some (if below % 2 = 0 then below else below + 1)
  | true, false => some below
  | false, true => some (below + 1)
  | false, false => none

/-- The digits of a number without its trailing zeros. -/
def significant (n : Nat) : Text :=
  ((Text.ofNat n).reverse.dropWhile (· == 48)).reverse

/-- The decimal `c * 10 ^ power`. -/
def numeralOf (c : Nat) (power : Int) : Numeral :=
  ⟨significant c, (digitCount c : Int) - 1 + power⟩

/-- Seventeen digits tell all numbers of the format apart. -/
def maxDigits : Nat := 17

/-- The shortest decimal that rounds to the target. -/
def Target.numeral (t : Target) : Numeral :=
  let lead := leadingPower t.value t.unit
  let attempt (n : Nat) : Option Numeral :=
    let power := lead - n
    (t.onGrid power).map fun c => numeralOf c power
  ((List.range maxDigits).findSome? attempt).getD ⟨utf8 "0", 0⟩

end Shortest

/-- The shortest decimal of a nonzero binary number, without its sign. -/
def Binary.shortest (b : Binary) : Numeral :=
  (Shortest.Target.ofBinary b).numeral

end EnglishScript
