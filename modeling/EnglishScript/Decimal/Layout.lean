import EnglishScript.Decimal.Shortest

namespace EnglishScript

namespace Numeral

/-- The text of `n` zeros. -/
def zeros (n : Nat) : Text :=
  List.replicate n 48

/-- The digits with the decimal point in its place, and no point for a whole number. -/
def positional (d : Numeral) : Text :=
  if d.lead < 0 then utf8 "0." ++ zeros (-d.lead - 1).toNat ++ d.digits
  else
    let whole := d.lead.toNat + 1
    if d.digits.length ≤ whole then d.digits ++ zeros (whole - d.digits.length)
    else d.digits.take whole ++ utf8 "." ++ d.digits.drop whole

/-- A power of ten with its sign and at least two digits. -/
def exponentText (n : Int) : Text :=
  let digits := Text.ofNat n.natAbs
  (if n < 0 then utf8 "-" else utf8 "+") ++ zeros (2 - digits.length) ++ digits

/-- One digit before the point, the others behind it, then the exponent. -/
def scientific (d : Numeral) : Text :=
  let fraction := d.digits.drop 1
  d.digits.take 1 ++ (if fraction.isEmpty then [] else utf8 "." ++ fraction) ++ utf8 "e" ++ exponentText d.lead

end Numeral

namespace Binary

/-- The sign of a number in front of its text. -/
def signed (b : Binary) (t : Text) : Text :=
  if b.negative then utf8 "-" ++ t else t

/-- The digits of a finite number with the decimal point in its place; zero is `0`. -/
def positional (b : Binary) : Text :=
  if b.mantissa = 0 then utf8 "0" else b.shortest.positional

/-- Whether the magnitude is below `10 ^ -4` and not zero. -/
def isTiny (b : Binary) : Bool :=
  b.mantissa ≠ 0 && b.mantissa * b.scaleUp * 10000 < b.scaleDown

/-- Whether the magnitude is at least `10 ^ 16`. -/
def isHuge (b : Binary) : Bool :=
  Nat.pow 10 16 * b.scaleDown ≤ b.mantissa * b.scaleUp

end Binary

/-- A text with `.0` behind it unless it has a point. -/
def withPoint (t : Text) : Text :=
  if t.contains 46 then t else t ++ utf8 ".0"

/-- A floating-point number as Python writes it: positional from `10 ^ -4` up to `10 ^ 16`, always with a point or an
exponent. -/
def pythonFloat (f : Float) : Text :=
  match Reading.ofFloat f with
  | .nan => utf8 "nan"
  | .infinite negative => if negative then utf8 "-inf" else utf8 "inf"
  | .finite b =>
    if b.isTiny || b.isHuge then b.signed b.shortest.scientific else b.signed (withPoint b.positional)

/-- A floating-point number in tree listings: positional while the first digit's power of ten is between -4 and 5. -/
def listingFloat (f : Float) : Text :=
  match Reading.ofFloat f with
  | .nan => utf8 "NaN"
  | .infinite negative => if negative then utf8 "-Inf" else utf8 "+Inf"
  | .finite b =>
    if b.mantissa ≠ 0 && (b.shortest.lead < -4 || 6 ≤ b.shortest.lead) then b.signed b.shortest.scientific
    else b.signed b.positional

end EnglishScript
