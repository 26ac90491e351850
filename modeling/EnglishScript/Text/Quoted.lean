import EnglishScript.Text.Utf8
import EnglishScript.Text.Printable

namespace EnglishScript.Text

/-- The letter of a control character that has a short escape. -/
def shortEscape? (c : Char) : Option Char :=
  match c.toNat with
  | 7 => some 'a'
  | 8 => some 'b'
  | 9 => some 't'
  | 10 => some 'n'
  | 11 => some 'v'
  | 12 => some 'f'
  | 13 => some 'r'
  | 34 => some '"'
  | 92 => some '\\'
  | _ => none

/-- A character between the quotes. -/
def quotedChar (c : Char) : Text :=
  match shortEscape? c with
  | some letter => [backslash] ++ ofChar letter
  | none =>
    if isPrintable c then ofChar c
    else if c.toNat < 0x80 then utf8 "\\x" ++ ofHex 2 c.toNat
    else if c.toNat < 0x10000 then utf8 "\\u" ++ ofHex 4 c.toNat
    else utf8 "\\U" ++ ofHex 8 c.toNat

/-- A glyph between the quotes; a stray byte is written by its value. -/
def quotedGlyph : Glyph → Text
  | .char c => quotedChar c
  | .stray b => utf8 "\\x" ++ ofHex 2 b.toNat

/-- The text between double quotes with escapes. -/
def quoted (t : Text) : Text :=
  [quote] ++ t.glyphs.flatMap quotedGlyph ++ [quote]

end EnglishScript.Text
