import EnglishScript.Decimal.Binary
import EnglishScript.Decimal.Reader
import EnglishScript.Yaml.Node

namespace EnglishScript.Yaml

/-- The value of a scalar. -/
inductive Value where
  | null
  | bool (b : Bool)
  | int (n : Int)
  | float (f : Float)
  | timestamp
  | merge
  | str (t : Text)
  deriving DecidableEq, Repr

namespace Value

/-- The short name of a value's type. -/
def tag : Value → Text
  | null => utf8 "!!null"
  | bool _ => utf8 "!!bool"
  | int _ => utf8 "!!int"
  | float _ => utf8 "!!float"
  | timestamp => utf8 "!!timestamp"
  | merge => utf8 "!!merge"
  | str _ => utf8 "!!str"

/-- The number written by digits of a base; there may be none. -/
def digits? (base : Nat) (t : Text) : Option Nat :=
  t.foldl
    (fun n? b =>
      match n?, Text.hexDigit? b with
      | some n, some d => if d < base then some (n * base + d) else none
      | _, _ => none)
    (some 0)

/-- The number written by at least one digit of a base. -/
def someDigits? (base : Nat) (t : Text) : Option Nat :=
  if t.isEmpty then none else digits? base t

/-- A whole number without a sign. `0b`, `0o` and `0x` name the base, and another `0` in front means base eight. -/
def magnitude? (t : Text) : Option Nat :=
  match t with
  | 48 :: b :: c :: rest =>
    let digits := c :: rest
    if Text.lowerByte b = 98 then digits? 2 digits
    else if Text.lowerByte b = 111 then digits? 8 digits
    else if Text.lowerByte b = 120 then digits? 16 digits
    else digits? 8 (b :: digits)
  | 48 :: rest => digits? 8 rest
  | _ => someDigits? 10 t

/-- A number with its sign, if it is one of 64 bits. -/
def signed? (negative : Bool) (magnitude : Option Nat) : Option Int :=
  magnitude.bind fun n =>
    if negative then (if n ≤ Nat.pow 2 63 then some (-(n : Int)) else none)
    else if n < Nat.pow 2 63 then some n else none

/-- A whole number in a base given beforehand, with an optional sign. -/
def inBase? (base : Nat) (t : Text) : Option Int :=
  let (negative, rest) := DecimalReader.takeSign t
  match signed? negative (someDigits? base rest) with
  | some n => some n
  | none => (someDigits? base t).bind fun n => if n < Nat.pow 2 64 then some (n : Int) else none

/-- A whole number: of 64 bits with a sign, or of 64 bits without one. -/
def int? (t : Text) : Option Int :=
  let (negative, rest) := DecimalReader.takeSign t
  match signed? negative (if rest.isEmpty then none else magnitude? rest) with
  | some n => some n
  | none =>
    (if t.isEmpty then none else magnitude? t).bind fun n => if n < Nat.pow 2 64 then some (n : Int) else none

/-- A whole number whose base is named in front of its own sign. -/
def prefixed? (t : Text) : Option Int :=
  match t with
  | 48 :: 98 :: rest => inBase? 2 rest
  | 48 :: 111 :: rest => inBase? 8 rest
  | 45 :: 48 :: 98 :: rest => signed? true (someDigits? 2 rest)
  | 45 :: 48 :: 111 :: rest => signed? true (someDigits? 8 rest)
  | _ => none

/-- One or two digits below a bound, and the rest. -/
def smallNumber? (bound : Nat) (t : Text) : Option (Nat × Text) :=
  let digits := (t.take 2).takeWhile Text.isDigit
  let n := DecimalReader.digitsValue digits
  if digits.isEmpty || bound ≤ n then none else some (n, t.drop digits.length)

/-- Goes over an expected character. -/
def expect? (b : UInt8) : Text → Option Text
  | c :: rest => if b = c then some rest else none
  | [] => none

/-- The number of days of a month. -/
def daysIn (year month : Nat) : Nat :=
  if month = 2 then (if year % 4 = 0 && (year % 100 ≠ 0 || year % 400 = 0) then 29 else 28)
  else if [4, 6, 9, 11].contains month then 30 else 31

/-- A date, and the rest behind it. -/
def date? (t : Text) : Option Text := do
  let digits := t.takeWhile Text.isDigit
  if digits.length ≠ 4 then none
  let rest ← expect? 45 (t.drop 4)
  let (month, rest) ← smallNumber? 13 rest
  let rest ← expect? 45 rest
  let (day, rest) ← smallNumber? 32 rest
  if month = 0 || day = 0 || daysIn (DecimalReader.digitsValue digits) month < day then none
  return rest

/-- A time of day with an optional fraction, and the rest behind it. -/
def clock? (t : Text) : Option Text := do
  let (_, rest) ← smallNumber? 24 t
  let rest ← expect? 58 rest
  let (_, rest) ← smallNumber? 60 rest
  let rest ← expect? 58 rest
  let (_, rest) ← smallNumber? 60 rest
  match rest with
  | b :: c :: more =>
    if (b = 46 || b = 44) && Text.isDigit c then return more.dropWhile Text.isDigit else return rest
  | _ => return rest

/-- Whether a text is a zone: `Z`, or hours and minutes with a sign. -/
def isZone (t : Text) : Bool :=
  match t with
  | [90] => true
  | [s, a, b, 58, c, d] =>
    (s = 43 || s = 45) && [a, b, c, d].all Text.isDigit && DecimalReader.digitsValue [a, b] ≤ 24
      && DecimalReader.digitsValue [c, d] < 60
  | _ => false

/-- Whether a text is a date, alone or with a time. -/
def isTimestamp (t : Text) : Bool :=
  match date? t with
  | none => false
  | some [] => true
  | some (b :: rest) =>
    match clock? rest with
    | none => false
    | some zone => if b = 84 || b = 116 then isZone zone else b = 32 && zone.isEmpty

/-- Whether a text is a decimal number: digits with an optional point and exponent. -/
def looksDecimal (t : Text) : Bool :=
  (DecimalReader.figures? .decimal (DecimalReader.takeSign t).2).isSome

/-- The words with a meaning of their own. -/
def words : List (Value × List String) :=
  [(.bool true, ["true", "True", "TRUE"]), (.bool false, ["false", "False", "FALSE"]),
    (.null, ["", "~", "null", "Null", "NULL"]), (.float (0 / 0), [".nan", ".NaN", ".NAN"]),
    (.float (1 / 0), [".inf", ".Inf", ".INF", "+.inf", "+.Inf", "+.INF"]),
    (.float (-1 / 0), ["-.inf", "-.Inf", "-.INF"]), (.merge, ["<<"])]

/-- The value of a word with a meaning of its own. -/
def ofWord? (t : Text) : Option Value :=
  (words.find? fun w => w.2.any fun s => utf8 s == t).map Prod.fst

/-- The value of a number or a time. -/
def ofNumeral? (t : Text) : Option Value :=
  if isTimestamp t then some .timestamp
  else
    let bare := t.filter (· ≠ 95)
    match int? bare, readFloat bare, prefixed? bare with
    | some n, _, _ => some (.int n)
    | none, .ok f, other => if looksDecimal bare then some (.float f) else other.map .int
    | none, .error _, other => other.map .int

/-- The value of a plain scalar. -/
def ofPlain (t : Text) : Value :=
  match ofWord? t with
  | some v => v
  | none =>
    match t with
    | b :: _ =>
      if b = 46 then
        match readFloat t with
        | .ok f => .float f
        | .error _ => .str t
      else if Text.isDigit b || b = 43 || b = 45 then (ofNumeral? t).getD (.str t)
      else .str t
    | [] => .null

/-- The value of a scalar. -/
def ofScalar (style : Style) (t : Text) : Value :=
  match style with
  | .plain => ofPlain t
  | .quoted | .block => .str t

/-- A floating-point number cut to a whole one of 64 bits, if it is not above them. Below them it is the least. -/
def truncated? (f : Float) : Option Int :=
  match Reading.ofFloat f with
  | .nan => none
  | .infinite negative => if negative then some (-(Nat.pow 2 63 : Int)) else none
  | .finite b =>
    let n : Nat := b.mantissa * b.scaleUp / b.scaleDown
    if b.negative then some (if n ≤ Nat.pow 2 63 then -(n : Int) else -(Nat.pow 2 63 : Int))
    else if Nat.pow 2 63 < n then none
    else if n = Nat.pow 2 63 then some (-(Nat.pow 2 63 : Int))
    else some n

end Value

end EnglishScript.Yaml
