import Mathlib.Data.List.TakeWhile
import EnglishScript.Token.Lexer

namespace EnglishScript

namespace Text

/-- A word: a letter or an underscore, then letters, digits and underscores. -/
def IsName (t : Text) : Prop :=
  ∃ c rest, t = c :: rest ∧ isAlpha c = true ∧ ∀ b ∈ rest, isWord b = true

/-- A number: digits, and behind a point more digits. -/
def IsNumeral (t : Text) : Prop :=
  ∃ d whole fraction, t = d :: (whole ++ fraction) ∧ isDigit d = true ∧ (∀ b ∈ whole, isDigit b = true) ∧
    (fraction = [] ∨ ∃ c digits, fraction = 46 :: c :: digits ∧ ∀ b ∈ c :: digits, isDigit b = true)

theorem isAlpha_of_lowerByte {b : UInt8} (h : isAlpha (lowerByte b) = true) : isAlpha b = true := by
  unfold lowerByte at h
  split at h
  next hupper =>
    simp only [isAlpha, hupper, Bool.or_true, Bool.true_or]
  next => exact h

variable {α : Type} {p : α → Bool} {v : List α} (hv : ∀ b ∈ v.head?, p b = false)
include hv

theorem takeWhile_stop (s : List α) : (s ++ v).takeWhile p = s.takeWhile p := by
  induction s with
  | nil =>
    cases v with
    | nil => rfl
    | cons b v => simp [hv b rfl]
  | cons c rest ih => simp only [List.cons_append, List.takeWhile_cons, ih]

theorem dropWhile_stop (s : List α) : (s ++ v).dropWhile p = s.dropWhile p ++ v := by
  induction s with
  | nil =>
    cases v with
    | nil => rfl
    | cons b v => simp [hv b rfl]
  | cons c rest ih =>
    simp only [List.cons_append, List.dropWhile_cons, ih]
    split <;> rfl

end Text

/-- The lexemes that the lexer gives to tokens of a kind. -/
def Kind.Spells : Kind → Text → Prop
  | .eof, t => t = []
  | .newline, t => t = [Text.lf]
  | .plus, t => t = utf8 "+"
  | .minus, t => t = utf8 "-"
  | .multiply, t => t = utf8 "*"
  | .divide, t => t = utf8 "/"
  | .equals, t => t = utf8 "="
  | .lparen, t => t = utf8 "("
  | .rparen, t => t = utf8 ")"
  | .string, t => ∀ b ∈ t, Lexer.isStringByte b = true
  | .number, t => t.IsNumeral
  | .identifier, t => t.IsName ∧ Kind.keywords.lookup t.lower = none
  | .isGreaterThan, t => t = utf8 "is greater than"
  | .isLessThan, t => t = utf8 "is less than"
  | .isEqualTo, t => t = utf8 "is equal to"
  | .isNotEqualTo, t => t = utf8 "is not equal to"
  | kind, t => t.IsName ∧ Kind.keywords.lookup t.lower = some kind

theorem Phrase.firstMatch_some {phrases : List Phrase} {s after : Text} {phrase : Phrase}
    (h : firstMatch phrases s = some (phrase, after)) : phrase ∈ phrases ∧ matchWords phrase.words s = some after := by
  obtain ⟨p, hp, hmatch⟩ := List.exists_of_findSome?_eq_some h
  obtain ⟨rest, hrest, heq⟩ := Option.map_eq_some_iff.mp hmatch
  cases heq
  exact ⟨hp, hrest⟩

namespace Lexer

theorem sign_spelled {c : UInt8} {kind : Kind} (h : sign? c = some kind) : kind.Spells [c] := by
  unfold sign? at h
  split at h <;> cases h <;> rfl

theorem stringPiece_spelled {rest lexeme : Text} {kind : Kind} {width : Nat}
    (h : stringPiece rest = .token kind lexeme width) : kind.Spells lexeme := by
  unfold stringPiece at h
  simp only at h
  split at h
  next b more hdrop =>
    split at h
    next =>
      cases h
      intro b hb
      exact List.mem_takeWhile_imp hb
    next => cases h
  next => cases h

theorem fraction_spelled (s : Text) : fraction s = [] ∨
    ∃ c digits, fraction s = 46 :: c :: digits ∧ ∀ b ∈ c :: digits, Text.isDigit b = true := by
  unfold fraction
  split
  next d rest =>
    split
    next hd =>
      refine Or.inr ⟨d, rest.takeWhile Text.isDigit, rfl, ?_⟩
      intro b hb
      rcases List.mem_cons.mp hb with rfl | hb
      · exact hd
      · exact List.mem_takeWhile_imp hb
    next => exact Or.inl rfl
  next => exact Or.inl rfl

theorem numberPiece_spelled {d : UInt8} {rest lexeme : Text} {kind : Kind} {width : Nat} (hd : Text.isDigit d = true)
    (h : numberPiece d rest = .token kind lexeme width) : kind.Spells lexeme := by
  cases h
  exact ⟨d, _, _, rfl, hd, fun b hb => List.mem_takeWhile_imp hb, fraction_spelled _⟩

theorem phrase_at_mem {s after : Text} {phrase : Phrase} (h : Phrase.at? s = some (phrase, after)) :
    phrase ∈ Phrase.table :=
  (Phrase.firstMatch_some h).1

theorem phrase_spelled {phrase : Phrase} (h : phrase ∈ Phrase.table) : phrase.kind.Spells phrase.spelling := by
  simp only [Phrase.table, List.mem_cons, List.not_mem_nil, or_false] at h
  rcases h with rfl | rfl | rfl | rfl <;> rfl

theorem ofWord_spelled {word : Text} (h : word.IsName) : (Kind.ofWord word).Spells word := by
  unfold Kind.ofWord
  cases hk : Kind.keywords.lookup word.lower with
  | none => exact ⟨h, hk⟩
  | some kind =>
    obtain ⟨front, back, hkeywords, _⟩ := List.lookup_eq_some_iff.mp hk
    have hmem : (word.lower, kind) ∈ Kind.keywords := by simp [hkeywords]
    simp only [Option.getD_some]
    simp only [Kind.keywords, List.mem_cons, List.not_mem_nil, or_false, Prod.mk.injEq] at hmem
    rcases hmem with ⟨_, rfl⟩ | ⟨_, rfl⟩ | ⟨_, rfl⟩ | ⟨_, rfl⟩ | ⟨_, rfl⟩ | ⟨_, rfl⟩ | ⟨_, rfl⟩ | ⟨_, rfl⟩ | ⟨_, rfl⟩ |
      ⟨_, rfl⟩ | ⟨_, rfl⟩ | ⟨_, rfl⟩ | ⟨_, rfl⟩ | ⟨_, rfl⟩ | ⟨_, rfl⟩ | ⟨_, rfl⟩ <;> exact ⟨h, hk⟩

theorem wordPiece_spelled {c : UInt8} {rest lexeme : Text} {kind : Kind} {width : Nat} (hc : Text.isAlpha c = true)
    (h : wordPiece c rest = .token kind lexeme width) : kind.Spells lexeme := by
  unfold wordPiece at h
  split at h
  next phrase after hphrase =>
    cases h
    exact phrase_spelled (phrase_at_mem hphrase)
  next =>
    cases h
    exact ofWord_spelled ⟨c, _, rfl, hc, fun b hb => List.mem_takeWhile_imp hb⟩

theorem piece_spelled {c : UInt8} {rest lexeme : Text} {kind : Kind} {width : Nat}
    (h : piece c rest = .token kind lexeme width) : kind.Spells lexeme := by
  unfold piece at h
  split at h
  next => cases h
  next =>
    split at h
    next => cases h; rfl
    next =>
      split at h
      next => exact stringPiece_spelled h
      next =>
        split at h
        next sign hsign => cases h; exact sign_spelled hsign
        next =>
          split at h
          next hd => exact numberPiece_spelled hd h
          next =>
            split at h
            next hc => exact wordPiece_spelled hc h
            next => cases h

theorem tokensFrom_spelled {skip : Nat} {p : Position} {s : Text} : ∀ {tokens : List Token},
    tokensFrom skip p s = .ok tokens → ∀ t ∈ tokens, t.kind.Spells t.lexeme := by
  fun_induction tokensFrom skip p s with
  | case1 skip p =>
    intro tokens h t ht
    cases Except.ok.inj h
    rw [List.mem_singleton.mp ht]
    rfl
  | case2 p skip c rest ih => exact ih
  | case3 p c rest hpiece ih => exact ih
  | case4 p c rest kind lexeme width hpiece ih =>
    intro tokens h t ht
    cases hrest : tokensFrom width (p.advance (c :: rest.take width)) rest with
    | error e => rw [hrest] at h; cases h
    | ok more =>
      rw [hrest] at h
      cases Except.ok.inj h
      rcases List.mem_cons.mp ht with rfl | ht
      · exact piece_spelled hpiece
      · exact ih hrest t ht
  | case5 p c rest char hpiece =>
    intro tokens h
    cases h
  | case6 p c rest hpiece =>
    intro tokens h
    cases h

end Lexer

/-- Every token of a source has a lexeme of its kind. -/
theorem lex_spelled {source : Text} {tokens : List Token} (h : lex source = .ok tokens) :
    ∀ t ∈ tokens, t.kind.Spells t.lexeme :=
  Lexer.tokensFrom_spelled h

end EnglishScript
