import EnglishScript.Decimal.Binary
import EnglishScript.Decimal.Reader

namespace EnglishScript.Duration

/-- The largest magnitude of a span. -/
def limit : Nat := Nat.pow 2 63

/-- The nanoseconds of a unit. -/
def unit? (t : Text) : Option Nat :=
  let table : List (Text × Nat) :=
    [(utf8 "ns", 1), (utf8 "us", 1000), (utf8 "µs", 1000), (utf8 "μs", 1000), (utf8 "ms", 1000000),
      (utf8 "s", 1000000000), (utf8 "m", 60000000000), (utf8 "h", 3600000000000)]
  table.lookup t

/-- The digits behind a point as far as they fit in 64 bits: their number, and the power of ten below it. -/
def fraction (ds : Text) : Nat × Nat × Bool :=
  ds.foldl
    (fun (n, power, full) d =>
      let next := n * 10 + (d.toNat - 48)
      if full || (limit - 1) / 10 < n || limit < next then (n, power, true) else (next, power + 1, false))
    (0, 0, false)

/-- The whole part of a floating-point number that is not negative. -/
def wholePart (f : Float) : Nat :=
  match Reading.ofFloat f with
  | .finite b => b.mantissa * b.scaleUp / b.scaleDown
  | _ => 0

/-- Multiplies by ten `n` times, rounding each time. -/
def powerOfTen (n : Nat) : Float :=
  n.repeat (· * 10) 1

/-- The nanoseconds of a fraction of a unit. -/
def fractionOf (unit : Nat) (ds : Text) : Nat :=
  let (n, power, _) := fraction ds
  if n = 0 then 0 else wholePart (Float.ofNat n * (Float.ofNat unit / powerOfTen power))

/-- Whether a byte ends a unit. -/
def endsUnit (b : UInt8) : Bool :=
  b = 46 || Text.isDigit b

/-- The first number with its unit, in nanoseconds, and the rest. -/
def part? (t : Text) : Option (Nat × Text) :=
  let whole := t.takeWhile Text.isDigit
  let afterWhole := t.dropWhile Text.isDigit
  let (digits, rest) :=
    match afterWhole with
    | 46 :: more => (more.takeWhile Text.isDigit, more.dropWhile Text.isDigit)
    | _ => ([], afterWhole)
  let n := DecimalReader.digitsValue whole
  if whole.isEmpty && digits.isEmpty || limit < n then none
  else
    (unit? (rest.takeWhile fun b => !endsUnit b)).bind fun unit =>
      if limit / unit < n then none
      else
        let total := n * unit + fractionOf unit digits
        if limit < total then none else some (total, rest.dropWhile fun b => !endsUnit b)

/-- The sum of all numbers with their units. -/
def sum? : Nat → Nat → Text → Option Nat
  | _, total, [] => some total
  | 0, _, _ :: _ => none
  | fuel + 1, total, t =>
    (part? t).bind fun (n, rest) => if limit < total + n then none else sum? fuel (total + n) rest

/-- The nanoseconds of a written span. -/
def ofText? (t : Text) : Option Int :=
  let (negative, rest) := DecimalReader.takeSign t
  if rest = [48] then some 0
  else if rest.isEmpty then none
  else
    (sum? rest.length 0 rest).bind fun n =>
      if negative then some (-(n : Int)) else if n < limit then some n else none

end EnglishScript.Duration
