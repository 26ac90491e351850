import EnglishScript.Text

namespace EnglishScript

/-- A glyph of a text is a character or a byte that belongs to no character. -/
inductive Glyph where
  | char (c : Char)
  | stray (b : UInt8)
  deriving DecidableEq, Repr

namespace Glyph

/-- The character shown for a glyph: a stray byte shows as U+FFFD. -/
def toChar : Glyph → Char
  | .char c => c
  | .stray _ => Char.ofNat 0xFFFD

end Glyph

namespace Text

/-- Whether a byte lies in the given range. -/
def within (low high b : UInt8) : Bool :=
  low ≤ b && b ≤ high

/-- The payload of a continuation byte. -/
def payload (b : UInt8) : Nat :=
  b.toNat % 64

/-- The second byte of a three-byte character: no overlong form and no surrogate. -/
def secondOfThree (a b : UInt8) : Bool :=
  within (if a = 0xE0 then 0xA0 else 0x80) (if a = 0xED then 0x9F else 0xBF) b

/-- The second byte of a four-byte character: no overlong form and nothing above U+10FFFF. -/
def secondOfFour (a b : UInt8) : Bool :=
  within (if a = 0xF0 then 0x90 else 0x80) (if a = 0xF4 then 0x8F else 0xBF) b

/-- The first glyph of the text `a :: rest`, with the number of bytes of `rest` that belong to it. -/
def firstGlyph (a : UInt8) (rest : Text) : Glyph × Nat :=
  if a < 0x80 then (.char (Char.ofNat a.toNat), 0)
  else if within 0xC2 0xDF a then
    match rest with
    | b :: _ =>
      if within 0x80 0xBF b then (.char (Char.ofNat ((a.toNat - 0xC0) * 64 + payload b)), 1) else (.stray a, 0)
    | [] => (.stray a, 0)
  else if within 0xE0 0xEF a then
    match rest with
    | b :: c :: _ =>
      if secondOfThree a b && within 0x80 0xBF c then
        (.char (Char.ofNat (((a.toNat - 0xE0) * 64 + payload b) * 64 + payload c)), 2)
      else (.stray a, 0)
    | _ => (.stray a, 0)
  else if within 0xF0 0xF4 a then
    match rest with
    | b :: c :: d :: _ =>
      if secondOfFour a b && within 0x80 0xBF c && within 0x80 0xBF d then
        (.char (Char.ofNat ((((a.toNat - 0xF0) * 64 + payload b) * 64 + payload c) * 64 + payload d)), 3)
      else (.stray a, 0)
    | _ => (.stray a, 0)
  else (.stray a, 0)

/-- The glyphs of a text whose first `skip` bytes belong to a glyph already read. -/
def glyphsFrom : Nat → Text → List Glyph
  | _, [] => []
  | skip + 1, _ :: rest => glyphsFrom skip rest
  | 0, a :: rest => (firstGlyph a rest).1 :: glyphsFrom (firstGlyph a rest).2 rest

/-- The glyphs of a text in order. -/
def glyphs (t : Text) : List Glyph :=
  glyphsFrom 0 t

/-- The characters of a text, a stray byte showing as U+FFFD. -/
def chars (t : Text) : List Char :=
  t.glyphs.map Glyph.toChar

/-- Whether the text is valid UTF-8. -/
def isUtf8 (t : Text) : Bool :=
  t.glyphs.all fun
    | .char _ => true
    | .stray _ => false

/-- The UTF-8 bytes of a character. -/
def ofChar (c : Char) : Text :=
  String.utf8EncodeChar c

/-- The UTF-8 bytes of a list of characters. -/
def ofChars (cs : List Char) : Text :=
  cs.flatMap ofChar

/-- The text as a string if it is valid UTF-8. -/
def toString? (t : Text) : Option String :=
  if t.isUtf8 then some (String.ofList t.chars) else none

end Text

end EnglishScript
