import EnglishScript.Text.Utf8

namespace EnglishScript.Text

/-- The characters with the Unicode property White_Space. -/
def isBlankChar (c : Char) : Bool :=
  let n := c.toNat
  (9 ≤ n && n ≤ 13) || n == 0x20 || n == 0x85 || n == 0xA0 || n == 0x1680 || (0x2000 ≤ n && n ≤ 0x200A)
    || n == 0x2028 || n == 0x2029 || n == 0x202F || n == 0x205F || n == 0x3000

/-- Whether a glyph is white space. -/
def isBlankGlyph : Glyph → Bool
  | .char c => isBlankChar c
  | .stray _ => false

/-- The bytes of a glyph. -/
def ofGlyph : Glyph → Text
  | .char c => ofChar c
  | .stray b => [b]

/-- The text without the white space at its two ends. -/
def trim (t : Text) : Text :=
  let inner := (t.glyphs.dropWhile isBlankGlyph).reverse.dropWhile isBlankGlyph
  inner.reverse.flatMap ofGlyph

/-- Whether a text holds nothing but white space. -/
def isBlank (t : Text) : Bool :=
  t.glyphs.all isBlankGlyph

end EnglishScript.Text
