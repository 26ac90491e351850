import EnglishScript.Text.Utf8

namespace EnglishScript.Python

/-- Why an escape by number cannot be read. -/
inductive EscapeFlaw where
  | truncated
  | invalid
  deriving DecidableEq, Repr

/-- An escape by number that cannot be read: its letter and the place of its backslash. -/
structure EscapeError where
  flaw : EscapeFlaw
  letter : Char
  position : Nat
  deriving DecidableEq, Repr

namespace EscapeError

/-- What is wrong, in Python's words. -/
def reason (e : EscapeError) : Text :=
  let flaw :=
    match e.flaw with
    | .truncated => utf8 "truncated"
    | .invalid => utf8 "invalid"
  flaw ++ utf8 " \\" ++ Text.ofChar e.letter ++ utf8 " escape at position " ++ Text.ofNat e.position

end EscapeError

/-- A text as Python shows a string: in single quotes, or in double quotes if it holds a single one, with backslashes
and line feeds escaped. -/
def shown (t : Text) : Text :=
  let mark : UInt8 := if t.contains 39 then Text.quote else 39
  [mark] ++ t.flatMap (fun b => if b = Text.backslash then [b, b] else if b = Text.lf then utf8 "\\n" else [b]) ++ [mark]

/-- The error as Python reports it. -/
def EscapeError.message (e : EscapeError) : Text :=
  utf8 "ValueError: " ++ shown e.reason

namespace Literal

/-- The character that an escape of one letter stands for. -/
def simpleEscape? : Char → Option Char
  | '\\' => some '\\'
  | '\'' => some '\''
  | '"' => some '"'
  | 'a' => some (Char.ofNat 7)
  | 'b' => some (Char.ofNat 8)
  | 't' => some (Char.ofNat 9)
  | 'n' => some (Char.ofNat 10)
  | 'v' => some (Char.ofNat 11)
  | 'f' => some (Char.ofNat 12)
  | 'r' => some (Char.ofNat 13)
  | _ => none

/-- The value of an octal digit. -/
def octalDigit? (c : Char) : Option Nat :=
  if '0' ≤ c && c ≤ '7' then some (c.toNat - 48) else none

/-- The value of a hexadecimal digit. -/
def hexDigitOf? (c : Char) : Option Nat :=
  if c.toNat < 128 then Text.hexDigit? c.toNat.toUInt8 else none

/-- The number written by hexadecimal digits; there must be one at least. -/
def hexValue? (ds : List Char) : Option Nat :=
  if ds.isEmpty then none
  else ds.foldlM (fun n d => (hexDigitOf? d).map (n * 16 + ·)) 0

/-- A hexadecimal number with an optional sign, in the range of 32 bits with sign. -/
def hexNumber? (cs : List Char) : Option Int :=
  match cs with
  | '+' :: ds => (hexValue? ds).bind fun n => if n < Nat.pow 2 31 then some (n : Int) else none
  | '-' :: ds => (hexValue? ds).bind fun n => if n ≤ Nat.pow 2 31 then some (-(n : Int)) else none
  | ds => (hexValue? ds).bind fun n => if n < Nat.pow 2 31 then some (n : Int) else none

/-- The character with a code; a number that is no code gives U+FFFD. -/
def charOf (n : Int) : Char :=
  if 0 ≤ n && n.toNat.isValidChar then Char.ofNat n.toNat else Char.ofNat 0xFFFD

/-- The number of digits of an escape by number. In a bytes literal only `\x` is one. -/
def hexWidth? (bytes : Bool) : Char → Option Nat
  | 'x' => some 2
  | 'u' => if bytes then none else some 4
  | 'U' => if bytes then none else some 8
  | _ => none

/-- The characters that follow a backslash at `position`: what they stand for, and how many are used after the
first. -/
def escape (bytes : Bool) (position : Nat) (c : Char) (rest : List Char) : Except EscapeError (List Char × Nat) :=
  match simpleEscape? c, octalDigit? c, hexWidth? bytes c with
  | some d, _, _ => .ok ([d], 0)
  | none, some d, _ =>
    let more := (rest.take 2).takeWhile fun x => (octalDigit? x).isSome
    let value := more.foldl (fun n x => n * 8 + (octalDigit? x).getD 0) d
    .ok ([charOf value], more.length)
  | none, none, some width =>
    if rest.length < width then .error ⟨.truncated, c, position⟩
    else
      match hexNumber? (rest.take width) with
      | some n => .ok ([charOf n], width)
      | none => .error ⟨.invalid, c, position⟩
  | none, none, none => if c = '\n' then .ok ([], 0) else .ok (['\\', c], 0)

/-- Reads the characters at `position` and behind; the first `skip` belong to an escape already read. -/
def decodeFrom (bytes : Bool) : Nat → Nat → List Char → Except EscapeError (List Char)
  | _, _, [] => .ok []
  | skip + 1, position, _ :: rest => decodeFrom bytes skip (position + 1) rest
  | 0, position, c :: rest =>
    if c = '\\' then
      match rest with
      | [] => .ok ['\\']
      | d :: more =>
        match escape bytes position d more with
        | .error e => .error e
        | .ok (out, used) => (decodeFrom bytes (used + 1) (position + 1) (d :: more)).map (out ++ ·)
    else (decodeFrom bytes 0 (position + 1) rest).map (c :: ·)

/-- The text that stands for the escapes of a literal. -/
def decode (bytes : Bool) (t : Text) : Except EscapeError Text :=
  if t.contains Text.backslash then (decodeFrom bytes 0 0 t.chars).map Text.ofChars else .ok t

/-- Whether the text ends in an odd number of backslashes, so that a quote behind it would be escaped. -/
def escapesEnd (t : Text) : Bool :=
  (t.reverse.takeWhile (· == Text.backslash)).length % 2 == 1

end Literal

/-- How the escapes of a literal are read. What does not depend on it is stated for any decoder. -/
class Decoder where
  decode : Text → Except EscapeError Text

instance : Decoder := ⟨Literal.decode false⟩

end EnglishScript.Python
