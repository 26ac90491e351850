import Mathlib.Data.List.Forall2
import EnglishScript.Proofs.Lexeme
import EnglishScript.Proofs.TextPlace

namespace EnglishScript

/-- The bytes from `start` up to `stop`, which is not included. -/
structure Span where
  start : Nat
  stop : Nat
  deriving DecidableEq, Repr

/-- The bytes of a source in a span. -/
def Span.bytes (span : Span) (source : Text) : Text :=
  (source.drop span.start).take (span.stop - span.start)

namespace Phrase

/-- The texts of further words, each in any case and behind one or more spaces or tabs. -/
def SpelledMore : List Text → Text → Prop
  | [], t => t = []
  | w :: ws, t => ∃ gap word rest, t = gap ++ (word ++ rest) ∧ gap ≠ [] ∧ (∀ b ∈ gap, isGap b = true) ∧
    Text.sameLetters word w = true ∧ SpelledMore ws rest

/-- The texts of the words of a phrase, in any case and with runs of spaces and tabs between them. -/
def Spelled : List Text → Text → Prop
  | [], t => t = []
  | w :: ws, t => ∃ word rest, t = word ++ rest ∧ Text.sameLetters word w = true ∧ SpelledMore ws rest

theorem ne_nil_of_sameLetters {word w : Text} (h : Text.sameLetters word w = true) (hw : w ≠ []) : word ≠ [] := by
  rintro rfl
  have hlower : Text.lower [] = Text.lower w := by simpa [Text.sameLetters] using h
  exact hw (by simpa [Text.lower] using hlower.symm)

theorem matchWord_some {w s after : Text} (h : matchWord w s = some after) :
    s = s.takeWhile Text.isWord ++ after ∧ Text.sameLetters (s.takeWhile Text.isWord) w = true ∧
      ∀ b ∈ after.head?, Text.isWord b = false := by
  unfold matchWord at h
  split at h
  next hsame =>
    cases Option.some.inj h
    refine ⟨List.takeWhile_append_dropWhile.symm, hsame, ?_⟩
    intro b hb
    have hstop := List.head?_dropWhile_not Text.isWord s
    rw [Option.mem_def.mp hb] at hstop
    exact hstop
  next => cases h

/-- Words that are read one after the other stand behind gaps: the word before has taken all it could. -/
theorem matchMore_some {words : List Text} (hwords : ∀ w ∈ words, w ≠ []) : ∀ {s after : Text},
    matchMore words s = some after → (∀ b ∈ s.head?, Text.isWord b = false) →
      ∃ bytes, s = bytes ++ after ∧ SpelledMore words bytes := by
  induction words with
  | nil =>
    intro s after h _
    cases Option.some.inj h
    exact ⟨[], rfl, rfl⟩
  | cons w ws ih =>
    intro s after h hs
    obtain ⟨next, hword, hmore⟩ := Option.bind_eq_some_iff.mp h
    obtain ⟨hsplit, hsame, hstop⟩ := matchWord_some hword
    obtain ⟨bytes, hnext, hspelled⟩ := ih (fun v hv => hwords v (by simp [hv])) hmore hstop
    have hne := ne_nil_of_sameLetters hsame (hwords w (by simp))
    have hgap : s.takeWhile isGap ++ s.dropWhile isGap = s := List.takeWhile_append_dropWhile
    refine ⟨s.takeWhile isGap ++ ((s.dropWhile isGap).takeWhile Text.isWord ++ bytes), ?_, ?_⟩
    · rw [List.append_assoc, List.append_assoc, ← hnext, ← hsplit, hgap]
    · refine ⟨_, _, _, rfl, ?_, fun b hb => List.mem_takeWhile_imp hb, hsame, hspelled⟩
      intro hempty
      rw [hempty, List.nil_append] at hgap
      rw [hgap] at hne
      cases s with
      | nil => exact hne rfl
      | cons b rest => exact hne (by simp [hs b rfl])

theorem matchWords_some {words : List Text} (hwords : ∀ w ∈ words, w ≠ []) {s after : Text}
    (h : matchWords words s = some after) : ∃ bytes, s = bytes ++ after ∧ Spelled words bytes := by
  cases words with
  | nil =>
    cases Option.some.inj h
    exact ⟨[], rfl, rfl⟩
  | cons w ws =>
    obtain ⟨next, hword, hmore⟩ := Option.bind_eq_some_iff.mp h
    obtain ⟨hsplit, hsame, hstop⟩ := matchWord_some hword
    obtain ⟨bytes, hnext, hspelled⟩ := matchMore_some (fun v hv => hwords v (by simp [hv])) hmore hstop
    exact ⟨s.takeWhile Text.isWord ++ bytes, by rw [List.append_assoc, ← hnext, ← hsplit], _, _, rfl, hsame, hspelled⟩

theorem matchWords_of_at {s after : Text} {phrase : Phrase} (h : at? s = some (phrase, after)) :
    matchWords phrase.words s = some after :=
  (firstMatch_some h).2

theorem words_ne_nil {phrase : Phrase} (h : phrase ∈ table) : ∀ w ∈ phrase.words, w ≠ [] := by
  simp only [table, List.mem_cons, List.not_mem_nil, or_false] at h
  rcases h with rfl | rfl | rfl | rfl <;> decide

theorem table_words_ne_nil {phrase : Phrase} (h : phrase ∈ table) : phrase.words ≠ [] := by
  simp only [table, List.mem_cons, List.not_mem_nil, or_false] at h
  rcases h with rfl | rfl | rfl | rfl <;> decide

theorem spelled_ne_nil {words : List Text} (hwords : ∀ w ∈ words, w ≠ []) (hne : words ≠ []) {bytes : Text}
    (h : Spelled words bytes) : bytes ≠ [] := by
  cases words with
  | nil => exact absurd rfl hne
  | cons w ws =>
    obtain ⟨word, rest, rfl, hsame, _⟩ := h
    have hword := ne_nil_of_sameLetters hsame (hwords w (by simp))
    simp [hword]

end Phrase

/-- Whether the lexemes of a kind are the bytes of the source as they stand. -/
def Kind.isVerbatim : Kind → Bool
  | .eof | .string | .isGreaterThan | .isLessThan | .isEqualTo | .isNotEqualTo => false
  | _ => true

/-- The token stands for the bytes: a string for its text in quotes, a comparison for its phrase in any spelling, and any
other token for its lexeme. An end token stands for no bytes. -/
def Token.Covers (t : Token) (bytes : Text) : Prop :=
  match t.kind with
  | .eof => False
  | .string => bytes = Text.quote :: (t.lexeme ++ [Text.quote])
  | .isGreaterThan | .isLessThan | .isEqualTo | .isNotEqualTo =>
    ∃ phrase ∈ Phrase.table, phrase.kind = t.kind ∧ t.lexeme = phrase.spelling ∧ Phrase.Spelled phrase.words bytes
  | _ => bytes = t.lexeme

theorem Token.covers_of_verbatim {t : Token} {bytes : Text} (hk : t.kind.isVerbatim = true) (h : bytes = t.lexeme) :
    t.Covers bytes := by
  unfold Kind.isVerbatim at hk
  unfold Token.Covers
  split at hk <;> simp_all

theorem Token.covers_phrase {phrase : Phrase} (hp : phrase ∈ Phrase.table) {bytes : Text}
    (h : Phrase.Spelled phrase.words bytes) (p : Position) :
    Token.Covers ⟨phrase.kind, phrase.spelling, p⟩ bytes := by
  have hcovers : ∃ q ∈ Phrase.table, q.kind = phrase.kind ∧ phrase.spelling = q.spelling ∧ Phrase.Spelled q.words bytes :=
    ⟨phrase, hp, rfl, rfl, h⟩
  simp only [Phrase.table, List.mem_cons, List.not_mem_nil, or_false] at hp
  rcases hp with rfl | rfl | rfl | rfl <;> exact hcovers

theorem Kind.ofWord_verbatim (word : Text) : (Kind.ofWord word).isVerbatim = true := by
  have hall : (keywords.all fun entry => entry.2.isVerbatim) = true := by decide
  unfold Kind.ofWord
  cases hk : keywords.lookup word.lower with
  | none => rfl
  | some kind =>
    obtain ⟨front, back, hkeywords, _⟩ := List.lookup_eq_some_iff.mp hk
    exact List.all_eq_true.mp hall (word.lower, kind) (by simp [hkeywords])

namespace Lexer

/-- A piece of `width` further bytes is all there and is what the token stands for. -/
def Fits (c : UInt8) (rest : Text) (kind : Kind) (lexeme : Text) (width : Nat) : Prop :=
  width ≤ rest.length ∧ ∀ p, Token.Covers ⟨kind, lexeme, p⟩ (c :: rest.take width)

theorem fits_of_start {c : UInt8} {rest tail : Text} {kind : Kind} (hk : kind.isVerbatim = true) (h : tail <+: rest) :
    Fits c rest kind (c :: tail) tail.length := by
  refine ⟨h.length_le, fun p => Token.covers_of_verbatim hk ?_⟩
  rw [List.prefix_iff_eq_take.mp h]
  simp

theorem stringPiece_fits {rest lexeme : Text} {kind : Kind} {width : Nat}
    (h : stringPiece rest = .token kind lexeme width) : Fits Text.quote rest kind lexeme width := by
  unfold stringPiece at h
  simp only at h
  split at h
  next b more hdrop =>
    split at h
    next hb =>
      cases h
      have htake := List.prefix_iff_eq_take.mp (List.takeWhile_prefix (l := rest) isStringByte)
      have hrest : rest = rest.takeWhile isStringByte ++ Text.quote :: more := by
        have hsplit := List.take_append_drop (rest.takeWhile isStringByte).length rest
        rw [← htake, hdrop, hb] at hsplit
        exact hsplit.symm
      refine ⟨?_, fun p => ?_⟩
      · have hlength := congrArg List.length hrest
        simp only [List.length_append, List.length_cons] at hlength
        omega
      · change Text.quote :: rest.take _ = Text.quote :: (rest.takeWhile isStringByte ++ [Text.quote])
        rw [List.take_add_one, ← htake, ← List.head?_drop, hdrop, hb]
        rfl
    next => cases h
  next => cases h

theorem fraction_begins (s : Text) : fraction s <+: s := by
  unfold fraction
  split
  next d rest =>
    split
    next => simpa using List.takeWhile_prefix Text.isDigit
    next => exact List.nil_prefix
  next => exact List.nil_prefix

theorem numberPiece_fits {d : UInt8} {rest lexeme : Text} {kind : Kind} {width : Nat}
    (h : numberPiece d rest = .token kind lexeme width) : Fits d rest kind lexeme width := by
  cases h
  refine fits_of_start rfl ?_
  have hsplit : rest.takeWhile Text.isDigit ++ rest.dropWhile Text.isDigit = rest := List.takeWhile_append_dropWhile
  have hprefix := (List.prefix_append_right_inj (rest.takeWhile Text.isDigit)).mpr
    (fraction_begins (rest.dropWhile Text.isDigit))
  rwa [hsplit] at hprefix

theorem wordPiece_fits {c : UInt8} {rest lexeme : Text} {kind : Kind} {width : Nat}
    (h : wordPiece c rest = .token kind lexeme width) : Fits c rest kind lexeme width := by
  unfold wordPiece at h
  split at h
  next phrase after hphrase =>
    cases h
    have hmem := phrase_at_mem hphrase
    have hwords := Phrase.words_ne_nil hmem
    obtain ⟨bytes, hbytes, hspelled⟩ := Phrase.matchWords_some hwords (Phrase.matchWords_of_at hphrase)
    cases bytes with
    | nil => exact absurd rfl (Phrase.spelled_ne_nil hwords (Phrase.table_words_ne_nil hmem) hspelled)
    | cons b bytes =>
      rw [List.cons_append] at hbytes
      obtain ⟨rfl, hrest⟩ := List.cons.inj hbytes
      have hlength : rest.length = bytes.length + after.length := by rw [hrest, List.length_append]
      refine ⟨by omega, fun p => ?_⟩
      have htake : rest.take (rest.length - after.length) = bytes := by
        rw [hlength, Nat.add_sub_cancel, hrest, List.take_left]
      rw [htake]
      exact Token.covers_phrase hmem hspelled p
  next =>
    cases h
    exact fits_of_start (Kind.ofWord_verbatim _) (List.takeWhile_prefix _)

/-- What a text can start with is decided by the class of its first byte. -/
theorem piece_class (c : UInt8) :
    (isLayout c = true ∧ ∀ rest, piece c rest = .blank) ∨
      (c = Text.lf ∧ ∀ rest, piece c rest = .token .newline [Text.lf] 0) ∨
      (c = Text.quote ∧ ∀ rest, piece c rest = stringPiece rest) ∨
      (∃ kind, sign? c = some kind ∧ ∀ rest, piece c rest = .token kind [c] 0) ∨
      (Text.isDigit c = true ∧ ∀ rest, piece c rest = numberPiece c rest) ∨
      (Text.isAlpha c = true ∧ ∀ rest, piece c rest = wordPiece c rest) ∨
      ((isLayout c = false ∧ c ≠ Text.lf ∧ c ≠ Text.quote ∧ sign? c = none ∧ Text.isWord c = false) ∧
        ∀ rest, piece c rest = .unexpected (Text.firstGlyph c rest).1.toChar) := by
  by_cases hlayout : isLayout c = true
  · exact Or.inl ⟨hlayout, fun rest => if_pos hlayout⟩
  refine Or.inr ?_
  by_cases hlf : c = Text.lf
  · exact Or.inl ⟨hlf, fun rest => (if_neg hlayout).trans (if_pos hlf)⟩
  refine Or.inr ?_
  by_cases hquote : c = Text.quote
  · exact Or.inl ⟨hquote, fun rest => ((if_neg hlayout).trans (if_neg hlf)).trans (if_pos hquote)⟩
  refine Or.inr ?_
  cases hsign : sign? c with
  | some kind =>
    refine Or.inl ⟨kind, rfl, fun rest => ?_⟩
    rw [piece, if_neg hlayout, if_neg hlf, if_neg hquote, hsign]
  | none =>
    refine Or.inr ?_
    by_cases hdigit : Text.isDigit c = true
    · refine Or.inl ⟨hdigit, fun rest => ?_⟩
      simp only [piece, if_neg hlayout, if_neg hlf, if_neg hquote, hsign, if_pos hdigit]
    refine Or.inr ?_
    by_cases halpha : Text.isAlpha c = true
    · refine Or.inl ⟨halpha, fun rest => ?_⟩
      simp only [piece, if_neg hlayout, if_neg hlf, if_neg hquote, hsign, if_neg hdigit, if_pos halpha]
    refine Or.inr ⟨⟨by simpa using hlayout, hlf, hquote, rfl, ?_⟩, fun rest => ?_⟩
    · simp [Text.isWord, halpha, hdigit]
    · simp only [piece, if_neg hlayout, if_neg hlf, if_neg hquote, hsign, if_neg hdigit, if_neg halpha]

theorem ascii_of_isLayout {c : UInt8} (h : isLayout c = true) : c < 128 := by
  simp only [isLayout, Bool.or_eq_true, beq_iff_eq] at h
  rcases h with (rfl | rfl) | rfl <;> decide

theorem ascii_of_sign {c : UInt8} {kind : Kind} (h : sign? c = some kind) : c < 128 := by
  unfold sign? at h
  split at h <;> first | decide | cases h

theorem ascii_of_isDigit {c : UInt8} (h : Text.isDigit c = true) : c < 128 := by
  simp only [Text.isDigit, Bool.and_eq_true, decide_eq_true_eq] at h
  exact UInt8.lt_of_le_of_lt h.2 (by decide)

theorem ascii_of_isAlpha {c : UInt8} (h : Text.isAlpha c = true) : c < 128 := by
  simp only [Text.isAlpha, Bool.or_eq_true, Bool.and_eq_true, decide_eq_true_eq, beq_iff_eq] at h
  rcases h with (h | h) | rfl
  · exact UInt8.lt_of_le_of_lt h.2 (by decide)
  · exact UInt8.lt_of_le_of_lt h.2 (by decide)
  · decide

theorem sign_verbatim {c : UInt8} {kind : Kind} (h : sign? c = some kind) : kind.isVerbatim = true := by
  unfold sign? at h
  split at h <;> cases h <;> rfl

/-- A token starts with an ASCII byte and stands for the bytes that the piece takes. -/
theorem piece_fits {c : UInt8} {rest lexeme : Text} {kind : Kind} {width : Nat}
    (h : piece c rest = .token kind lexeme width) : c < 128 ∧ Fits c rest kind lexeme width := by
  have single {k : Kind} (hk : k.isVerbatim = true) : Fits c rest k [c] 0 := fits_of_start hk List.nil_prefix
  rcases piece_class c with ⟨_, hp⟩ | ⟨hc, hp⟩ | ⟨hc, hp⟩ | ⟨sign, hc, hp⟩ | ⟨hc, hp⟩ | ⟨hc, hp⟩ | ⟨_, hp⟩ <;> rw [hp] at h
  · cases h
  · cases h
    subst hc
    exact ⟨by decide, single rfl⟩
  · subst hc
    exact ⟨by decide, stringPiece_fits h⟩
  · cases h
    exact ⟨ascii_of_sign hc, single (sign_verbatim hc)⟩
  · exact ⟨ascii_of_isDigit hc, numberPiece_fits h⟩
  · exact ⟨ascii_of_isAlpha hc, wordPiece_fits h⟩
  · cases h

end Lexer

/-- The spans tile the source from the byte at `n` on: they follow one another, all bytes outside are layout, and each token
stands for its span at the place behind the bytes in front of it. -/
structure Tiles (source : Text) (n : Nat) (tokens : List Token) (spans : List Span) : Prop where
  ordered : spans.Pairwise fun a b => a.stop ≤ b.start
  inside : ∀ span ∈ spans, n ≤ span.start ∧ span.start < span.stop ∧ span.stop ≤ source.length
  layout : ∀ i b, n ≤ i → source[i]? = some b → (∀ span ∈ spans, i < span.start ∨ span.stop ≤ i) →
    Lexer.isLayout b = true
  covers : List.Forall₂ (fun t span => t.pos = Position.behind (source.take span.start) ∧ t.Covers (span.bytes source))
    tokens spans

namespace Tiles

theorem nil (source : Text) : Tiles source source.length [] [] := by
  refine ⟨.nil, by simp, ?_, .nil⟩
  intro i b hi hb _
  rw [List.getElem?_eq_none hi] at hb
  cases hb

theorem blank {source : Text} {n : Nat} {tokens : List Token} {spans : List Span} {c : UInt8}
    (h : Tiles source (n + 1) tokens spans) (hc : source[n]? = some c) (hlayout : Lexer.isLayout c = true) :
    Tiles source n tokens spans := by
  refine ⟨h.ordered, ?_, ?_, h.covers⟩
  · intro span hspan
    have := h.inside span hspan
    omega
  · intro i b hi hb hout
    by_cases heq : i = n
    · subst heq
      cases Option.some.inj (hc.symm.trans hb)
      exact hlayout
    · exact h.layout i b (by omega) hb hout

theorem token {source : Text} {n m : Nat} {tokens : List Token} {spans : List Span} {t : Token}
    (h : Tiles source m tokens spans) (hnm : n < m) (hm : m ≤ source.length)
    (hpos : t.pos = Position.behind (source.take n)) (hcovers : t.Covers (Span.bytes ⟨n, m⟩ source)) :
    Tiles source n (t :: tokens) (⟨n, m⟩ :: spans) := by
  refine ⟨?_, ?_, ?_, .cons ⟨hpos, hcovers⟩ h.covers⟩
  · exact List.pairwise_cons.mpr ⟨fun span hspan => (h.inside span hspan).1, h.ordered⟩
  · intro span hspan
    rcases List.mem_cons.mp hspan with rfl | hspan
    · exact ⟨Nat.le_refl _, hnm, hm⟩
    · have := h.inside span hspan
      omega
  · intro i b hi hb hout
    have hbehind := hout ⟨n, m⟩ (by simp)
    simp only at hbehind
    exact h.layout i b (by omega) hb fun span hspan => hout span (by simp [hspan])

end Tiles

namespace Lexer

theorem blank_layout {c : UInt8} {rest : Text} (h : piece c rest = .blank) : isLayout c = true := by
  rcases piece_class c with ⟨hc, _⟩ | ⟨_, hp⟩ | ⟨_, hp⟩ | ⟨_, _, hp⟩ | ⟨_, hp⟩ | ⟨_, hp⟩ | ⟨_, hp⟩
  · exact hc
  all_goals rw [hp] at h
  · cases h
  · unfold stringPiece at h
    simp only at h
    split at h
    next => split at h <;> cases h
    next => cases h
  · cases h
  · cases h
  · unfold wordPiece at h
    split at h <;> cases h
  · cases h

theorem tokensFrom_skip (skip : Nat) (p : Position) (s : Text) :
    tokensFrom skip p s = tokensFrom 0 p (s.drop skip) := by
  induction s generalizing skip with
  | nil => simp [tokensFrom]
  | cons c rest ih =>
    cases skip with
    | zero => rfl
    | succ skip => exact ih skip

/-- What is left of a source is tiled by the tokens read from it, if the place is the one behind what was read before. -/
theorem tokensFrom_tiles {source : Text} {skip : Nat} {p : Position} {s : Text} :
    ∀ {before : Text} {tokens : List Token}, tokensFrom skip p s = .ok tokens → source = before ++ s.drop skip →
      p = Position.behind before → ∃ body spans, tokens = body ++ [Token.endAt (Position.behind source)] ∧
        Tiles source before.length body spans := by
  fun_induction tokensFrom skip p s with
  | case1 skip p =>
    intro before tokens h hsource hp
    rw [List.drop_nil, List.append_nil] at hsource
    subst hsource
    cases Except.ok.inj h
    exact ⟨[], [], by rw [hp]; rfl, .nil source⟩
  | case2 p skip c rest ih => exact ih
  | case3 p c rest hpiece ih =>
    intro before tokens h hsource hp
    rw [List.drop_zero] at hsource
    have hlayout := blank_layout hpiece
    have hnext : p.advance [c] = Position.behind (before ++ [c]) := by
      rw [hp, Position.behind_advance before (Text.ascii_head (ascii_of_isLayout hlayout) [])]
    obtain ⟨body, spans, htokens, htiles⟩ := ih h (by simp [hsource]) hnext
    rw [List.length_append] at htiles
    exact ⟨body, spans, htokens, htiles.blank (by simp [hsource]) hlayout⟩
  | case4 p c rest kind lexeme width hpiece ih =>
    intro before tokens h hsource hp
    rw [List.drop_zero] at hsource
    obtain ⟨hc, hwidth, hcovers⟩ := piece_fits hpiece
    have hnext : p.advance (c :: rest.take width) = Position.behind (before ++ c :: rest.take width) := by
      rw [hp, Position.behind_advance before (Text.ascii_head hc _)]
    cases hrest : tokensFrom width (p.advance (c :: rest.take width)) rest with
    | error e => rw [hrest] at h; cases h
    | ok more =>
      rw [hrest] at h
      cases Except.ok.inj h
      obtain ⟨body, spans, rfl, htiles⟩ := ih hrest (by simp [hsource]) hnext
      have hlength : (before ++ c :: rest.take width).length = before.length + (width + 1) := by
        simp [Nat.min_eq_left hwidth]
      rw [hlength] at htiles
      refine ⟨_ :: body, _, rfl, htiles.token (by omega) ?_ ?_ ?_⟩
      · simp only [hsource, List.length_append, List.length_cons]
        omega
      · rw [hsource, List.take_left, hp]
      · have hbytes : Span.bytes ⟨before.length, before.length + (width + 1)⟩ source = c :: rest.take width := by
          simp [Span.bytes, hsource]
        rw [hbytes]
        exact hcovers p
  | case5 p c rest char hpiece =>
    intro before tokens h
    cases h
  | case6 p c rest hpiece =>
    intro before tokens h
    cases h

end Lexer

/-- The tokens of a source but the last one tile it from its first byte on, and the last one marks its end. -/
theorem lex_tiles {source : Text} {tokens : List Token} (h : lex source = .ok tokens) :
    ∃ body spans, tokens = body ++ [Token.endAt (Position.behind source)] ∧ Tiles source 0 body spans :=
  Lexer.tokensFrom_tiles h (List.nil_append source).symm rfl

/-- A source whose columns are no byte offsets: a character of two bytes and a stray byte stand in its string. -/
theorem lex_tiles_phrase :
    lex (utf8 "\t\"é" ++ [255] ++ utf8 "\" IS  less\tThan 2\r\nx") = .ok
        [⟨.string, utf8 "é" ++ [255], ⟨1, 2⟩⟩, ⟨.isLessThan, utf8 "is less than", ⟨1, 7⟩⟩, ⟨.number, utf8 "2", ⟨1, 21⟩⟩,
          ⟨.newline, utf8 "\n", ⟨1, 23⟩⟩, ⟨.identifier, utf8 "x", ⟨2, 1⟩⟩, ⟨.eof, [], ⟨2, 2⟩⟩] ∧
      ∃ body spans, body.length = 5 ∧ Tiles (utf8 "\t\"é" ++ [255] ++ utf8 "\" IS  less\tThan 2\r\nx") 0 body spans := by
  have hlex : lex (utf8 "\t\"é" ++ [255] ++ utf8 "\" IS  less\tThan 2\r\nx") = .ok
      [⟨.string, utf8 "é" ++ [255], ⟨1, 2⟩⟩, ⟨.isLessThan, utf8 "is less than", ⟨1, 7⟩⟩, ⟨.number, utf8 "2", ⟨1, 21⟩⟩,
        ⟨.newline, utf8 "\n", ⟨1, 23⟩⟩, ⟨.identifier, utf8 "x", ⟨2, 1⟩⟩, ⟨.eof, [], ⟨2, 2⟩⟩] := by
    decide +kernel
  obtain ⟨body, spans, htokens, htiles⟩ := lex_tiles hlex
  have hlength := congrArg List.length htokens
  simp only [List.length_append, List.length_cons, List.length_nil] at hlength
  exact ⟨hlex, body, spans, by omega, htiles⟩

end EnglishScript
