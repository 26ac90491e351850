import EnglishScript.Text

namespace EnglishScript

/-- Why a text is no floating-point number. -/
inductive NumeralError where
  | malformed
  | outOfRange
  deriving DecidableEq, Repr

namespace NumeralError

/-- The wording of the cause. -/
def message : NumeralError → Text
  | .malformed => utf8 "invalid syntax"
  | .outOfRange => utf8 "value out of range"

end NumeralError

namespace DecimalReader

/-- The number written by decimal digits. -/
def digitsValue (ds : Text) : Nat :=
  ds.foldl (fun n d => n * 10 + (d.toNat - 48)) 0

/-- The number written by hexadecimal digits. -/
def hexValue (ds : Text) : Nat :=
  ds.foldl (fun n d => n * 16 + (Text.hexDigit? d).getD 0) 0

/-- The number written by the digits of an exponent. Once it is ten thousand or more, further digits are passed over. -/
def exponentValue (ds : Text) : Nat :=
  ds.foldl (fun n d => if n < 10000 then n * 10 + (d.toNat - 48) else n) 0

/-- An optional sign: whether it is a minus, and the rest. -/
def takeSign : Text → Bool × Text
  | 43 :: rest => (false, rest)
  | 45 :: rest => (true, rest)
  | s => (false, s)

/-- A number with its sign. -/
def signed (negative : Bool) (n : Nat) : Int :=
  if negative then -(n : Int) else n

/-- The digits that a number is written with. -/
inductive Radix where
  | decimal
  | hexadecimal
  deriving DecidableEq, Repr

namespace Radix

/-- Whether a byte is a digit. -/
def isDigit : Radix → UInt8 → Bool
  | decimal => Text.isDigit
  | hexadecimal => fun b => (Text.hexDigit? b).isSome

/-- The letter in front of an exponent. -/
def letter : Radix → UInt8
  | decimal => 101
  | hexadecimal => 112

end Radix

/-- The exponent behind a mantissa, as its sign and its digits: nothing, or a letter with an optional sign and at least one
digit. -/
def exponent? (letter : UInt8) : Text → Option (Bool × Text)
  | [] => some (false, [])
  | e :: rest =>
    if Text.lowerByte e = letter then
      let (negative, ds) := takeSign rest
      if ds.isEmpty || !ds.all Text.isDigit then none else some (negative, ds)
    else none

/-- The digits of a number without its sign: those before the point and behind it, and those of the exponent, of which
there are none if there is no exponent. -/
structure Figures where
  whole : Text
  fraction : Text
  negative : Bool
  exponent : Text
  deriving DecidableEq, Repr

/-- The digits of a text that is a number: digits with an optional point, and an optional exponent. -/
def figures? (r : Radix) (s : Text) : Option Figures :=
  let whole := s.takeWhile r.isDigit
  let afterWhole := s.dropWhile r.isDigit
  let (fraction, rest) :=
    match afterWhole with
    | 46 :: more => (more.takeWhile r.isDigit, more.dropWhile r.isDigit)
    | _ => ([], afterWhole)
  if whole.isEmpty && fraction.isEmpty then none
  else (exponent? r.letter rest).map fun (negative, exponent) => ⟨whole, fraction, negative, exponent⟩

/-- The floating-point number nearest to `m * 10 ^ e`. Powers far outside the range are not formed. -/
def nearest (m : Nat) (e : Int) : Except NumeralError Float :=
  let size := (Text.ofNat m).length + e
  if m = 0 || size < -400 then .ok 0
  else if 400 < size then .error .outOfRange
  else
    let f := Float.ofScientific m (e < 0) e.natAbs
    if f.isInf then .error .outOfRange else .ok f

/-- The floating-point number nearest to `m * 2 ^ e`, which is a decimal too. -/
def nearestBinary (m : Nat) (e : Int) : Except NumeralError Float :=
  nearest (m * Nat.pow 2 e.toNat * Nat.pow 5 (-e).toNat) (min e 0)

namespace Figures

/-- The exponent that is read. -/
def power (f : Figures) : Int :=
  signed f.negative (exponentValue f.exponent)

/-- The number that digits are read as. Hexadecimal digits need an exponent, which is one of two. -/
def read (f : Figures) : Radix → Except NumeralError Float
  | .decimal => nearest (digitsValue (f.whole ++ f.fraction)) (f.power - f.fraction.length)
  | .hexadecimal =>
    if f.exponent.isEmpty then .error .malformed
    else nearestBinary (hexValue (f.whole ++ f.fraction)) (f.power - 4 * f.fraction.length)

end Figures

/-- Whether every underscore stands between two digits; `after` says whether a digit stands in front of the text. -/
def separated (isDigit : UInt8 → Bool) : Bool → Text → Bool
  | _, [] => true
  | after, b :: rest =>
    if b = 95 then after && rest.head?.any isDigit && separated isDigit false rest
    else separated isDigit (isDigit b) rest

/-- A number without its sign, in which underscores separate digits. -/
def inRadix (r : Radix) (after : Bool) (s : Text) : Except NumeralError Float :=
  if separated r.isDigit after s then
    match figures? r (s.filter (· ≠ 95)) with
    | some f => f.read r
    | none => .error .malformed
  else .error .malformed

/-- The text behind the mark of hexadecimal digits. -/
def hexadecimal? : Text → Option Text
  | 48 :: x :: rest => if Text.lowerByte x = 120 then some rest else none
  | _ => none

/-- A number without its sign. The mark of hexadecimal digits counts as a digit where an underscore follows it. -/
def unsigned (s : Text) : Except NumeralError Float :=
  match hexadecimal? s with
  | some digits => inRadix .hexadecimal true digits
  | none => inRadix .decimal false s

/-- Whether a text names infinity. -/
def isInfinity (s : Text) : Bool :=
  Text.sameLetters s (utf8 "inf") || Text.sameLetters s (utf8 "infinity")

end DecimalReader

/-- The floating-point number that a text denotes: an optional sign, then decimal or hexadecimal digits or a name of
infinity, or else the name of the number that is none. -/
def readFloat (s : Text) : Except NumeralError Float :=
  let (negative, rest) := DecimalReader.takeSign s
  let withSign (f : Float) : Float := if negative then -f else f
  if DecimalReader.isInfinity rest then .ok (withSign (1 / 0))
  else if Text.sameLetters s (utf8 "nan") then .ok (0 / 0)
  else (DecimalReader.unsigned rest).map withSign

end EnglishScript
