namespace EnglishScript

/-- A text is a sequence of bytes, which need not be valid UTF-8; its characters are a view of it. -/
abbrev Text := List UInt8

/-- The bytes of a string in UTF-8. -/
def utf8 (s : String) : Text :=
  s.toByteArray.data.toList

namespace Text

/-- The line feed, which ends a line. -/
abbrev lf : UInt8 := 10

/-- The carriage return. -/
abbrev cr : UInt8 := 13

/-- The horizontal tab. -/
abbrev tab : UInt8 := 9

/-- The space. -/
abbrev space : UInt8 := 32

/-- The double quote. -/
abbrev quote : UInt8 := 34

/-- The backslash. -/
abbrev backslash : UInt8 := 92

/-- The decimal digits of a number. -/
def ofNat (n : Nat) : Text :=
  (Nat.toDigits 10 n).map fun c => c.toNat.toUInt8

/-- An integer in decimal, with a minus sign below zero. -/
def ofInt : Int → Text
  | .ofNat n => ofNat n
  | .negSucc n => utf8 "-" ++ ofNat (n + 1)

/-- A number in base sixteen with lower-case digits, filled with zeros up to `width`. -/
def ofHex (width n : Nat) : Text :=
  let digits := (Nat.toDigits 16 n).map fun c => c.toNat.toUInt8
  List.replicate (width - digits.length) 48 ++ digits

/-- Appends spaces up to `width` bytes. -/
def padRight (width : Nat) (t : Text) : Text :=
  t ++ List.replicate (width - t.length) space

/-- The texts one after the other with `sep` between neighbours. -/
def join (sep : Text) : List Text → Text
  | [] => []
  | [t] => t
  | t :: u :: rest => t ++ sep ++ join sep (u :: rest)

/-- Each text followed by a line feed. -/
def unlines (lines : List Text) : Text :=
  lines.flatMap fun l => l ++ [lf]

/-- The pieces between line feeds; a text without a line feed is one piece. -/
def splitLines : Text → List Text
  | [] => [[]]
  | b :: rest =>
    match splitLines rest with
    | [] => [[b]]
    | l :: ls => if b = lf then [] :: l :: ls else (b :: l) :: ls

/-- Whether `part` stands somewhere in the text. -/
def hasInfix (part : Text) : Text → Bool
  | [] => part.isEmpty
  | b :: rest => part.isPrefixOf (b :: rest) || hasInfix part rest

/-- The number of line feeds. -/
def lineFeeds (t : Text) : Nat :=
  t.count lf

/-- The order of texts is that of their bytes; a text follows each of its beginnings. -/
def before : Text → Text → Bool
  | _, [] => false
  | [], _ :: _ => true
  | a :: as, b :: bs => if a = b then before as bs else a < b

/-- Whether a byte is an ASCII digit. -/
def isDigit (b : UInt8) : Bool :=
  48 ≤ b && b ≤ 57

/-- Whether a byte is an ASCII letter or the underscore. -/
def isAlpha (b : UInt8) : Bool :=
  (97 ≤ b && b ≤ 122) || (65 ≤ b && b ≤ 90) || b == 95

/-- Whether a byte can stand in a word: an ASCII letter, a digit or the underscore. -/
def isWord (b : UInt8) : Bool :=
  isAlpha b || isDigit b

/-- The lower-case form of an ASCII letter; any other byte stays. -/
def lowerByte (b : UInt8) : UInt8 :=
  if 65 ≤ b && b ≤ 90 then b + 32 else b

/-- The text with its ASCII letters in lower case. -/
def lower (t : Text) : Text :=
  t.map lowerByte

/-- Equality up to the case of ASCII letters. -/
def sameLetters (t u : Text) : Bool :=
  lower t == lower u

/-- The value of a hexadecimal digit. -/
def hexDigit? (b : UInt8) : Option Nat :=
  if isDigit b then some (b.toNat - 48)
  else if 97 ≤ b && b ≤ 102 then some (b.toNat - 87)
  else if 65 ≤ b && b ≤ 70 then some (b.toNat - 55)
  else none

end Text

end EnglishScript
