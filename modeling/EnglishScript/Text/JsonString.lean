import EnglishScript.Text.Utf8

namespace EnglishScript.Text

/-- The escape of a character by its number. -/
def numberEscape (n : Nat) : Text :=
  utf8 "\\u" ++ ofHex 4 n

/-- A character inside a JSON string. -/
def jsonChar (c : Char) : Text :=
  if c = '"' then utf8 "\\\""
  else if c = '\\' then utf8 "\\\\"
  else if c = '\n' then utf8 "\\n"
  else if c = '\r' then utf8 "\\r"
  else if c = '\t' then utf8 "\\t"
  else if c.toNat = 8 then utf8 "\\b"
  else if c.toNat = 12 then utf8 "\\f"
  else if c.toNat < 0x20 || c = '<' || c = '>' || c = '&' || c.toNat = 0x2028 || c.toNat = 0x2029 then
    numberEscape c.toNat
  else ofChar c

/-- A text as a JSON string. -/
def jsonString (t : Text) : Text :=
  [34] ++ t.chars.flatMap jsonChar ++ [34]

end EnglishScript.Text
