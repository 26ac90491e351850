import EnglishScript.Token

namespace EnglishScript

/-- A comparison operator spelled as several words. -/
structure Phrase where
  words : List Text
  kind : Kind
  deriving DecidableEq, Repr

namespace Phrase

/-- The comparison phrases. -/
def table : List Phrase :=
  [⟨[utf8 "is", utf8 "not", utf8 "equal", utf8 "to"], .isNotEqualTo⟩,
    ⟨[utf8 "is", utf8 "greater", utf8 "than"], .isGreaterThan⟩,
    ⟨[utf8 "is", utf8 "less", utf8 "than"], .isLessThan⟩,
    ⟨[utf8 "is", utf8 "equal", utf8 "to"], .isEqualTo⟩]

/-- The one spelling of a phrase in lexemes: lower case, single spaces. -/
def spelling (p : Phrase) : Text :=
  Text.join (utf8 " ") p.words

/-- The bytes that may stand between the words of a phrase. -/
def isGap (b : UInt8) : Bool :=
  b == Text.space || b == Text.tab

/-- Reads the given word, in any case, as a whole word at the start of a text, and gives the text after it. -/
def matchWord (word : Text) (s : Text) : Option Text :=
  if Text.sameLetters (s.takeWhile Text.isWord) word then some (s.dropWhile Text.isWord) else none

/-- Reads further words, each after a gap, and gives the text after the last one. -/
def matchMore : List Text → Text → Option Text
  | [], s => some s
  | w :: ws, s => (matchWord w (s.dropWhile isGap)).bind (matchMore ws)

/-- Reads the words of a phrase at the start of a text and gives the text after the last one. -/
def matchWords : List Text → Text → Option Text
  | [], s => some s
  | w :: ws, s => (matchWord w s).bind (matchMore ws)

/-- The first phrase of a list that stands at the start of a text, with the text after it. -/
def firstMatch (phrases : List Phrase) (s : Text) : Option (Phrase × Text) :=
  phrases.findSome? fun p => (matchWords p.words s).map fun rest => (p, rest)

/-- The comparison phrase at the start of a text, with the text after it. -/
def at? (s : Text) : Option (Phrase × Text) :=
  firstMatch table s

end Phrase

end EnglishScript
