import EnglishScript.Proofs.RoundTrip
import EnglishScript.Proofs.Tiling

namespace EnglishScript

/-- A token without its place: its kind and its lexeme. -/
def Token.unplaced (t : Token) : Kind × Text :=
  (t.kind, t.lexeme)

/-- A token as it is written: a string between quotes, the end as nothing, and any other token as its lexeme. -/
def Kind.written (kind : Kind) (lexeme : Text) : Text :=
  match kind with
  | .eof => []
  | .string => Text.quote :: (lexeme ++ [Text.quote])
  | _ => lexeme

/-- The tokens as a text, with one space between neighbours. -/
def Token.spaced (tokens : List Token) : Text :=
  Text.join (utf8 " ") (tokens.map fun t => t.kind.written t.lexeme)

/-- Every carriage return stands directly before a line feed. -/
def Text.ReturnsPaired (s : Text) : Prop :=
  ∀ i, s[i]? = some cr → s[i + 1]? = some lf

instance (s : Text) : Decidable s.ReturnsPaired :=
  decidable_of_iff (∀ i < s.length, s[i]? = some Text.cr → s[i + 1]? = some Text.lf)
    ⟨fun h i hi => h i (List.getElem?_eq_some_iff.mp hi).1 hi, fun h i _ => h i⟩

theorem Text.returnsPaired_append {a b : Text} (h : (a ++ b).ReturnsPaired) : b.ReturnsPaired := by
  have hshift (j : Nat) : (a ++ b)[a.length + j]? = b[j]? := by
    rw [List.getElem?_append_right (by omega), Nat.add_sub_cancel_left]
  intro i hi
  rw [← hshift] at hi ⊢
  exact h (a.length + i) hi

theorem Text.returnsPaired_drop {s : Text} (h : s.ReturnsPaired) (n : Nat) : Text.ReturnsPaired (s.drop n) :=
  Text.returnsPaired_append (a := s.take n) (by rwa [List.take_append_drop])

theorem Text.returnsPaired_behind {front rest : Text} {c : UInt8} (h : (front ++ c :: rest).ReturnsPaired) :
    rest.ReturnsPaired :=
  Text.returnsPaired_append (a := front ++ [c]) (by simpa using h)

theorem Kind.written_of_verbatim {kind : Kind} (h : kind.isVerbatim = true) (lexeme : Text) :
    kind.written lexeme = lexeme := by
  unfold Kind.isVerbatim at h
  unfold Kind.written
  split at h <;> simp_all

namespace Phrase

theorem written_phrase {phrase : Phrase} (h : phrase ∈ table) (lexeme : Text) :
    phrase.kind.written lexeme = lexeme := by
  simp only [table, List.mem_cons, List.not_mem_nil, or_false] at h
  rcases h with rfl | rfl | rfl | rfl <;> rfl

theorem spelling_first {phrase : Phrase} (h : phrase ∈ table) :
    ∃ more, phrase.spelling = 105 :: 115 :: Text.space :: more := by
  simp only [table, List.mem_cons, List.not_mem_nil, or_false] at h
  rcases h with rfl | rfl | rfl | rfl <;> exact ⟨_, rfl⟩

/-- A word that only stands inside a phrase: it starts with no digit and opens no phrase. -/
def isInner (w : Text) : Bool :=
  match w with
  | [] => false
  | a :: _ => !Text.isDigit (Text.lowerByte a) && !Text.sameLetters (utf8 "is") w

theorem words_inner {phrase : Phrase} (h : phrase ∈ table) :
    ∃ ws, phrase.words = utf8 "is" :: ws ∧ ∀ w ∈ ws, isInner w = true := by
  simp only [table, List.mem_cons, List.not_mem_nil, or_false] at h
  rcases h with rfl | rfl | rfl | rfl <;> exact ⟨_, rfl, by decide⟩

theorem sameLetters_nil_inner {w : Text} (hw : isInner w = true) : Text.sameLetters [] w = false := by
  cases w with
  | nil => cases hw
  | cons a w => simp [Text.sameLetters, Text.lower]

end Phrase

namespace Lexer

/-- The text is read into tokens, given without their places and without the end token. -/
inductive Reads : Text → List (Kind × Text) → Prop
  | nil : Reads [] []
  | blank {c : UInt8} {rest : Text} {ts : List (Kind × Text)} (start : piece c rest = .blank) (next : Reads rest ts) :
      Reads (c :: rest) ts
  | token {c : UInt8} {rest lexeme : Text} {kind : Kind} {width : Nat} {ts : List (Kind × Text)}
      (start : piece c rest = .token kind lexeme width) (next : Reads (rest.drop width) ts) :
      Reads (c :: rest) ((kind, lexeme) :: ts)

theorem reads_of_tokensFrom {skip : Nat} {p : Position} {s : Text} : ∀ {tokens : List Token},
    tokensFrom skip p s = .ok tokens →
      ∃ body q, tokens = body ++ [Token.endAt q] ∧ Reads (s.drop skip) (body.map Token.unplaced) := by
  fun_induction tokensFrom skip p s with
  | case1 skip p =>
    intro tokens h
    cases Except.ok.inj h
    exact ⟨[], p, rfl, by simpa using Reads.nil⟩
  | case2 p skip c rest ih => exact ih
  | case3 p c rest hpiece ih =>
    intro tokens h
    obtain ⟨body, q, htokens, hreads⟩ := ih h
    exact ⟨body, q, htokens, .blank hpiece hreads⟩
  | case4 p c rest kind lexeme width hpiece ih =>
    intro tokens h
    cases hrest : tokensFrom width (p.advance (c :: rest.take width)) rest with
    | error e => rw [hrest] at h; cases h
    | ok more =>
      rw [hrest] at h
      cases Except.ok.inj h
      obtain ⟨body, q, rfl, hreads⟩ := ih hrest
      exact ⟨_ :: body, q, rfl, .token hpiece hreads⟩
  | case5 p c rest char hpiece =>
    intro tokens h
    cases h
  | case6 p c rest hpiece =>
    intro tokens h
    cases h

theorem Reads.tokensFrom {s : Text} {ts : List (Kind × Text)} (h : Reads s ts) : ∀ p : Position,
    ∃ body q, tokensFrom 0 p s = .ok (body ++ [Token.endAt q]) ∧ body.map Token.unplaced = ts := by
  induction h with
  | nil => exact fun p => ⟨[], p, rfl, rfl⟩
  | @blank c rest ts hpiece _ ih =>
    intro p
    obtain ⟨body, q, htokens, hbody⟩ := ih (p.advance [c])
    exact ⟨body, q, by rw [Lexer.tokensFrom, hpiece]; exact htokens, hbody⟩
  | @token c rest lexeme kind width ts hpiece _ ih =>
    intro p
    obtain ⟨body, q, htokens, hbody⟩ := ih (p.advance (c :: rest.take width))
    refine ⟨⟨kind, lexeme, p⟩ :: body, q, ?_, by rw [List.map_cons, hbody]; rfl⟩
    rw [Lexer.tokensFrom, hpiece]
    simp only
    rw [tokensFrom_skip, htokens]
    rfl

/-- The first token stands behind layout. -/
theorem Reads.cons_inv {s : Text} {kind : Kind} {lexeme : Text} {ts : List (Kind × Text)}
    (h : Reads s ((kind, lexeme) :: ts)) : ∃ layout c rest width, s = layout ++ c :: rest ∧
      (∀ b ∈ layout, isLayout b = true) ∧ piece c rest = .token kind lexeme width ∧ Reads (rest.drop width) ts := by
  generalize hts : (kind, lexeme) :: ts = all at h
  induction h with
  | nil => cases hts
  | @blank c rest _ hpiece _ ih =>
    obtain ⟨layout, d, more, width, hrest, hlayout, hd, hreads⟩ := ih hts
    refine ⟨c :: layout, d, more, width, by rw [hrest]; rfl, ?_, hd, hreads⟩
    intro b hb
    rcases List.mem_cons.mp hb with rfl | hb
    · exact blank_layout hpiece
    · exact hlayout b hb
  | @token c rest _ _ width _ hpiece hnext _ =>
    cases hts
    exact ⟨[], c, rest, width, rfl, by simp, hpiece, hnext⟩

/-- What a token that starts a text can be. -/
inductive Shape (c : UInt8) (rest : Text) : Kind → Text → Nat → Prop
  | newline : Shape c rest .newline [Text.lf] 0
  | string {body : Text} {width : Nat} (bytes : ∀ b ∈ body, isStringByte b = true) : Shape c rest .string body width
  | sign {kind : Kind} (sign : sign? c = some kind) : Shape c rest kind [c] 0
  | number {lexeme : Text} {width : Nat} (numeral : lexeme.IsNumeral) : Shape c rest .number lexeme width
  | phrase {phrase : Phrase} {width : Nat} (mem : phrase ∈ Phrase.table) :
      Shape c rest phrase.kind phrase.spelling width
  | word (first : Text.isAlpha c = true) (noPhrase : Phrase.at? (c :: rest) = none) :
      Shape c rest (Kind.ofWord (c :: rest.takeWhile Text.isWord)) (c :: rest.takeWhile Text.isWord)
        (rest.takeWhile Text.isWord).length

theorem piece_shape {c : UInt8} {rest lexeme : Text} {kind : Kind} {width : Nat}
    (h : piece c rest = .token kind lexeme width) : Shape c rest kind lexeme width := by
  rcases piece_class c with ⟨_, hp⟩ | ⟨_, hp⟩ | ⟨_, hp⟩ | ⟨sign, hc, hp⟩ | ⟨hc, hp⟩ | ⟨hc, hp⟩ | ⟨_, hp⟩ <;> rw [hp] at h
  · cases h
  · cases h
    exact .newline
  · have hspelled := stringPiece_spelled h
    unfold stringPiece at h
    simp only at h
    split at h
    next =>
      split at h <;> cases h
      exact .string hspelled
    next => cases h
  · cases h
    exact .sign hc
  · have hspelled := numberPiece_spelled hc h
    cases h
    exact .number hspelled
  · unfold wordPiece at h
    split at h
    next phrase after hphrase =>
      cases h
      exact .phrase (phrase_at_mem hphrase)
    next hnone =>
      cases h
      exact .word hc hnone
  · cases h

theorem isLayout_of_isWord {c : UInt8} (h : Text.isWord c = true) : isLayout c = false := by
  cases hl : isLayout c with
  | false => rfl
  | true =>
    simp only [isLayout, Bool.or_eq_true, beq_iff_eq] at hl
    rcases hl with (rfl | rfl) | rfl <;> exact absurd h (by decide)

theorem isGap_of_isWord {c : UInt8} (h : Text.isWord c = true) : Phrase.isGap c = false := by
  have hlayout := isLayout_of_isWord h
  rw [isLayout, Bool.or_eq_false_iff] at hlayout
  exact hlayout.1

theorem piece_of_isWord {c : UInt8} (rest : Text) (h : Text.isWord c = true) :
    piece c rest = if Text.isDigit c then numberPiece c rest else wordPiece c rest := by
  have hlf : c ≠ Text.lf := by rintro rfl; exact absurd h (by decide)
  have hquote : c ≠ Text.quote := by rintro rfl; exact absurd h (by decide)
  have hsign : sign? c = none := by
    unfold sign?
    split <;> first | rfl | exact absurd h (by decide)
  have halpha : Text.isDigit c = false → Text.isAlpha c = true := by
    intro hd
    simpa [Text.isWord, hd] using h
  unfold piece
  rw [isLayout_of_isWord h, if_neg (by decide), if_neg hlf, if_neg hquote, hsign]
  simp only
  split
  next => rfl
  next hd => rw [if_pos (halpha (by simpa using hd))]

theorem wordPiece_phrase {c : UInt8} {rest after : Text} {phrase : Phrase}
    (h : Phrase.at? (c :: rest) = some (phrase, after)) :
    wordPiece c rest = .token phrase.kind phrase.spelling (rest.length - after.length) := by
  unfold wordPiece
  rw [h]

theorem wordPiece_word {c : UInt8} {rest : Text} (h : Phrase.at? (c :: rest) = none) :
    wordPiece c rest = .token (Kind.ofWord (c :: rest.takeWhile Text.isWord)) (c :: rest.takeWhile Text.isWord)
      (rest.takeWhile Text.isWord).length := by
  unfold wordPiece
  rw [h]

theorem sign_byte {c : UInt8} {kind : Kind} (h : sign? c = some kind) :
    Text.isWord c = false ∧ Phrase.isGap c = false ∧ ∀ s, piece c s = .token kind [c] 0 := by
  unfold sign? at h
  split at h <;> cases h <;> exact ⟨rfl, rfl, fun _ => rfl⟩

/-- A text that a token may be followed by: it is empty or starts with a space. -/
def Apart (s : Text) : Prop :=
  ∀ b ∈ s.head?, b = Text.space

theorem Apart.stop {s : Text} (h : Apart s) {p : UInt8 → Bool} (hp : p Text.space = false) :
    ∀ b ∈ s.head?, p b = false := by
  intro b hb
  rw [h b hb, hp]

/-- A text that a number may be followed by: it starts with no digit and no point. -/
def EndsNumber (s : Text) : Prop :=
  ∀ b ∈ s.head?, Text.isDigit b = false ∧ b ≠ 46

theorem Apart.endsNumber {s : Text} (h : Apart s) : EndsNumber s := by
  intro b hb
  rw [h b hb]
  decide

theorem fraction_endsNumber {fraction s : Text} (hs : EndsNumber s)
    (h : fraction = [] ∨ ∃ c digits, fraction = 46 :: c :: digits ∧ ∀ b ∈ c :: digits, Text.isDigit b = true) :
    Lexer.fraction (fraction ++ s) = fraction := by
  rcases h with rfl | ⟨c, digits, rfl, hdigits⟩
  · rw [List.nil_append]
    unfold Lexer.fraction
    split
    next d rest => exact absurd rfl (hs 46 rfl).2
    next => rfl
  · have htake : (digits ++ s).takeWhile Text.isDigit = digits :=
      ReadBack.takeWhile_append_stop (fun b hb => hdigits b (by simp [hb])) fun b hb => (hs b hb).1
    simp [Lexer.fraction, hdigits c (by simp), htake]

theorem numberPiece_numeral {d : UInt8} {more s : Text} (h : Text.IsNumeral (d :: more)) (hs : EndsNumber s) :
    Text.isDigit d = true ∧ numberPiece d (more ++ s) = .token .number (d :: more) more.length := by
  obtain ⟨d, whole, fraction, heq, hd, hwhole, hfraction⟩ := h
  obtain ⟨rfl, rfl⟩ := List.cons.inj heq
  have hstop : ∀ b ∈ (fraction ++ s).head?, Text.isDigit b = false := by
    rcases hfraction with rfl | ⟨c, digits, rfl, _⟩
    · exact fun b hb => (hs b hb).1
    · rintro b ⟨⟩
      decide
  have htake : (whole ++ (fraction ++ s)).takeWhile Text.isDigit = whole := ReadBack.takeWhile_append_stop hwhole hstop
  have hdrop : (whole ++ (fraction ++ s)).dropWhile Text.isDigit = fraction ++ s :=
    ReadBack.dropWhile_append_stop hwhole hstop
  refine ⟨hd, ?_⟩
  rw [List.append_assoc, numberPiece, htake, hdrop, fraction_endsNumber hs hfraction]

/-- A phrase in its own spelling is read as that phrase, up to the space that follows it. -/
theorem at_spelling {phrase : Phrase} (h : phrase ∈ Phrase.table) {s : Text} (hs : Apart s) :
    Phrase.at? (phrase.spelling ++ s) = some (phrase, s) := by
  simp only [Phrase.table, List.mem_cons, List.not_mem_nil, or_false] at h
  cases s with
  | nil => rcases h with rfl | rfl | rfl | rfl <;> rfl
  | cons b more =>
    cases hs b rfl
    rcases h with rfl | rfl | rfl | rfl <;> rfl

/-- Layout in front of a token on the same line has no carriage return, so a phrase may run across it. -/
theorem isGap_of_layout {layout rest : Text} {c : UInt8} (h : (layout ++ c :: rest).ReturnsPaired)
    (hlayout : ∀ b ∈ layout, isLayout b = true) (hc : c ≠ Text.lf) : ∀ b ∈ layout, Phrase.isGap b = true := by
  intro b hb
  have hb' := hlayout b hb
  simp only [isLayout, Bool.or_eq_true, beq_iff_eq] at hb'
  rcases hb' with (rfl | rfl) | rfl
  · rfl
  · rfl
  · obtain ⟨front, back, rfl⟩ := List.append_of_mem hb
    have hnext := h front.length (by simp)
    cases back with
    | nil =>
      have hlf : c = Text.lf := by simpa using hnext
      exact absurd hlf hc
    | cons e back =>
      have hlf : e = Text.lf := by simpa using hnext
      have he := hlayout e (by simp)
      rw [hlf] at he
      exact absurd he (by decide)

theorem dropWhile_layout {layout rest : Text} {c : UInt8} (h : (layout ++ c :: rest).ReturnsPaired)
    (hlayout : ∀ b ∈ layout, isLayout b = true) (hc : Text.isAlpha c = true) :
    (layout ++ c :: rest).dropWhile Phrase.isGap = c :: rest := by
  have hlf : c ≠ Text.lf := by rintro rfl; exact absurd hc (by decide)
  refine ReadBack.dropWhile_append_stop (isGap_of_layout h hlayout hlf) ?_
  rintro _ ⟨⟩
  exact isGap_of_isWord (by simp [Text.isWord, hc])

/-- A written token that starts with an inner word of a phrase is that word in the source. -/
theorem Shape.word_of_written {c : UInt8} {rest lexeme : Text} {kind : Kind} {width : Nat}
    (h : Shape c rest kind lexeme width) {s w : Text} (hw : Phrase.isInner w = true)
    (hsame : Text.sameLetters ((kind.written lexeme ++ s).takeWhile Text.isWord) w = true) :
    Text.isAlpha c = true ∧ kind.written lexeme = c :: rest.takeWhile Text.isWord ∧
      width = (rest.takeWhile Text.isWord).length := by
  have hempty (hnil : (kind.written lexeme ++ s).takeWhile Text.isWord = []) : False := by
    rw [hnil, Phrase.sameLetters_nil_inner hw] at hsame
    cases hsame
  cases h with
  | newline => exact (hempty rfl).elim
  | string => exact (hempty rfl).elim
  | sign hsign =>
    rw [Kind.written_of_verbatim (sign_verbatim hsign)] at hempty
    exact (hempty (by simp [(sign_byte hsign).1])).elim
  | number hnumeral =>
    obtain ⟨d, whole, fraction, rfl, hd, _⟩ := hnumeral
    cases w with
    | nil => cases hw
    | cons a w =>
      simp only [Phrase.isInner, Bool.and_eq_true, Bool.not_eq_true'] at hw
      have hne : Text.lowerByte a ≠ d := by
        rintro rfl
        rw [hd] at hw
        exact absurd hw.1 (by decide)
      have hdigit : Text.isWord d = true := by simp [Text.isWord, hd]
      simp only [Kind.written, List.cons_append, List.takeWhile_cons, hdigit, ↓reduceIte,
        Text.sameLetters_of_isDigit hd hne] at hsame
      cases hsame
  | phrase hmem =>
    obtain ⟨more, hmore⟩ := Phrase.spelling_first hmem
    rw [Phrase.written_phrase hmem, hmore] at hsame
    have his : Text.sameLetters (utf8 "is") w = true := hsame
    cases w with
    | nil => cases hw
    | cons a w => simp [Phrase.isInner, his] at hw
  | word hfirst =>
    exact ⟨hfirst, Kind.written_of_verbatim (Kind.ofWord_verbatim _) _, rfl⟩

theorem Shape.written_first {c : UInt8} {rest lexeme : Text} {kind : Kind} {width : Nat}
    (h : Shape c rest kind lexeme width) : ∃ d more, kind.written lexeme = d :: more ∧ Phrase.isGap d = false := by
  cases h with
  | newline => exact ⟨_, _, rfl, rfl⟩
  | string => exact ⟨_, _, rfl, rfl⟩
  | sign hsign => exact ⟨_, _, Kind.written_of_verbatim (sign_verbatim hsign) _, (sign_byte hsign).2.1⟩
  | number hnumeral =>
    obtain ⟨d, whole, fraction, rfl, hd, _⟩ := hnumeral
    exact ⟨_, _, rfl, isGap_of_isWord (by simp [Text.isWord, hd])⟩
  | phrase hmem =>
    obtain ⟨more, hmore⟩ := Phrase.spelling_first hmem
    exact ⟨_, _, by rw [Phrase.written_phrase hmem, hmore], rfl⟩
  | word hfirst =>
    refine ⟨_, _, Kind.written_of_verbatim (Kind.ofWord_verbatim _) _, ?_⟩
    exact isGap_of_isWord (by simp [Text.isWord, hfirst])

theorem drop_word (rest : Text) : rest.drop (rest.takeWhile Text.isWord).length = rest.dropWhile Text.isWord := by
  calc rest.drop (rest.takeWhile Text.isWord).length
      = (rest.takeWhile Text.isWord ++ rest.dropWhile Text.isWord).drop (rest.takeWhile Text.isWord).length := by
        rw [List.takeWhile_append_dropWhile]
    _ = rest.dropWhile Text.isWord := List.drop_left

/-- A whole word is compared as it stands, whatever text without a word comes behind it. -/
theorem matchWord_whole {c : UInt8} (rest : Text) (hc : Text.isAlpha c = true) (w : Text) {s : Text}
    (hs : ∀ b ∈ s.head?, Text.isWord b = false) : Phrase.matchWord w (c :: (rest.takeWhile Text.isWord ++ s)) =
      if Text.sameLetters (c :: rest.takeWhile Text.isWord) w then some s else none := by
  have hword : ∀ b ∈ c :: rest.takeWhile Text.isWord, Text.isWord b = true :=
    List.forall_mem_cons.mpr ⟨by simp [Text.isWord, hc], fun b hb => List.mem_takeWhile_imp hb⟩
  rw [← List.cons_append, Phrase.matchWord, ReadBack.takeWhile_append_stop hword hs,
    ReadBack.dropWhile_append_stop hword hs]

/-- In the source the word is followed by what its token leaves. -/
theorem matchWord_source {c : UInt8} {rest : Text} (hc : Text.isAlpha c = true) (w : Text) :
    Phrase.matchWord w (c :: rest) = if Text.sameLetters (c :: rest.takeWhile Text.isWord) w then
      some (rest.drop (rest.takeWhile Text.isWord).length) else none := by
  have hstop : ∀ b ∈ (rest.dropWhile Text.isWord).head?, Text.isWord b = false := by
    intro b hb
    have hnot := List.head?_dropWhile_not Text.isWord rest
    rwa [Option.mem_def.mp hb] at hnot
  have hwhole := matchWord_whole rest hc w hstop
  rwa [List.takeWhile_append_dropWhile, ← drop_word] at hwhole

/-- What is written behind a token: the further tokens, each behind a space, and then `trail`. -/
def writtenAfter (ts : List (Kind × Text)) (trail : Text) : Text :=
  ts.flatMap (fun t => Text.space :: t.1.written t.2) ++ trail

theorem writtenAfter_cons (kind : Kind) (lexeme : Text) (ts : List (Kind × Text)) (trail : Text) :
    writtenAfter ((kind, lexeme) :: ts) trail = Text.space :: (kind.written lexeme ++ writtenAfter ts trail) := by
  simp [writtenAfter]

section

variable {trail : Text} (htrail : ∀ b ∈ trail, b = Text.space)
include htrail

theorem apart_writtenAfter (ts : List (Kind × Text)) : Apart (writtenAfter ts trail) := by
  cases ts with
  | nil => exact fun b hb => htrail b (List.mem_of_mem_head? hb)
  | cons t ts =>
    rw [writtenAfter_cons]
    rintro b ⟨⟩
    rfl

/-- A written token that is read as an inner word of a phrase: in the source it is a word of the same letters. -/
theorem Shape.word_of_match {c : UInt8} {rest lexeme : Text} {kind : Kind} {width : Nat}
    (h : Shape c rest kind lexeme width) {w next : Text} (hw : Phrase.isInner w = true) {ts : List (Kind × Text)}
    (hword : Phrase.matchWord w ((writtenAfter ((kind, lexeme) :: ts) trail).dropWhile Phrase.isGap) = some next) :
    Text.isAlpha c = true ∧ width = (rest.takeWhile Text.isWord).length ∧
      Text.sameLetters (c :: rest.takeWhile Text.isWord) w = true ∧ next = writtenAfter ts trail := by
  obtain ⟨d, more, hwritten, hd⟩ := h.written_first
  have hdrop : (writtenAfter ((kind, lexeme) :: ts) trail).dropWhile Phrase.isGap =
      kind.written lexeme ++ writtenAfter ts trail := by
    rw [writtenAfter_cons, List.dropWhile_cons_of_pos rfl, hwritten, List.cons_append,
      List.dropWhile_cons_of_neg (by simp [hd])]
  rw [hdrop] at hword
  obtain ⟨hc, hlexeme, hwidth⟩ := h.word_of_written hw (Phrase.matchWord_some hword).2.1
  rw [hlexeme, List.cons_append, matchWord_whole rest hc w ((apart_writtenAfter htrail ts).stop rfl)] at hword
  split at hword
  next hsame => exact ⟨hc, hwidth, hsame, (Option.some.inj hword).symm⟩
  next => cases hword

/-- Words of a phrase that are read in the written text are read in the source. -/
theorem matchMore_source {ws : List Text} (hws : ∀ w ∈ ws, Phrase.isInner w = true) :
    ∀ {s : Text} {ts : List (Kind × Text)}, Reads s ts → s.ReturnsPaired →
      (Phrase.matchMore ws (writtenAfter ts trail)).isSome = true → (Phrase.matchMore ws s).isSome = true := by
  -- Each word is one token on both sides, so the words and the tokens are used up together.
  induction ws with
  | nil => exact fun _ _ _ => rfl
  | cons w ws ih =>
    intro s ts hreads hpaired h
    obtain ⟨after, hafter⟩ := Option.isSome_iff_exists.mp h
    obtain ⟨next, hword, hmore⟩ := Option.bind_eq_some_iff.mp hafter
    have hw := hws w (by simp)
    cases ts with
    | nil =>
      have hgap : trail.dropWhile Phrase.isGap = [] := by
        rw [List.dropWhile_eq_nil_iff]
        intro b hb
        rw [htrail b hb]
        rfl
      have hsame := (Phrase.matchWord_some hword).2.1
      simp only [writtenAfter, List.flatMap_nil, List.nil_append, hgap, List.takeWhile_nil,
        Phrase.sameLetters_nil_inner hw] at hsame
      cases hsame
    | cons t ts =>
      obtain ⟨layout, c, rest, width, rfl, hlayout, hpiece, hnext⟩ := hreads.cons_inv
      obtain ⟨hc, rfl, hsame, rfl⟩ := (piece_shape hpiece).word_of_match htrail hw hword
      have hrest := Text.returnsPaired_drop (Text.returnsPaired_behind hpaired) (rest.takeWhile Text.isWord).length
      have hsource := ih (fun v hv => hws v (by simp [hv])) hnext hrest (by simp [hmore])
      rw [Phrase.matchMore, dropWhile_layout hpaired hlayout hc, matchWord_source hc w, if_pos hsame]
      exact hsource

/-- Spaces between the tokens bring no phrase about. -/
theorem at_written_eq_none {c : UInt8} {rest : Text} (hc : Text.isAlpha c = true) {ts : List (Kind × Text)}
    (hreads : Reads (rest.drop (rest.takeWhile Text.isWord).length) ts) (hpaired : Text.ReturnsPaired rest)
    (h : Phrase.at? (c :: rest) = none) :
    Phrase.at? (c :: (rest.takeWhile Text.isWord ++ writtenAfter ts trail)) = none := by
  cases hat : Phrase.at? (c :: (rest.takeWhile Text.isWord ++ writtenAfter ts trail)) with
  | none => rfl
  | some found =>
    obtain ⟨phrase, after⟩ := found
    have hmem := phrase_at_mem hat
    obtain ⟨ws, hwords, hinner⟩ := Phrase.words_inner hmem
    have hwritten := Phrase.matchWords_of_at hat
    rw [hwords, Phrase.matchWords, matchWord_whole rest hc _ ((apart_writtenAfter htrail ts).stop rfl)] at hwritten
    split at hwritten
    next hsame =>
      have hmore : Phrase.matchMore ws (writtenAfter ts trail) = some after := hwritten
      have hsource := matchMore_source htrail hinner hreads (Text.returnsPaired_drop hpaired _) (by simp [hmore])
      obtain ⟨rest', hrest'⟩ := Option.isSome_iff_exists.mp hsource
      have hnone := List.findSome?_eq_none_iff.mp h phrase hmem
      rw [hwords, Phrase.matchWords, matchWord_source hc, if_pos hsame, Option.bind_some, hrest'] at hnone
      cases hnone
    next => cases hwritten

theorem reads_spaces : Reads trail [] := by
  induction trail with
  | nil => exact .nil
  | cons b trail ih =>
    cases htrail b (by simp)
    exact .blank rfl (ih fun b hb => htrail b (by simp [hb]))

/-- A written token is read as itself. -/
theorem Shape.piece_written {c : UInt8} {rest lexeme : Text} {kind : Kind} {width : Nat}
    (h : Shape c rest kind lexeme width) {ts : List (Kind × Text)} (hreads : Reads (rest.drop width) ts)
    (hpaired : rest.ReturnsPaired) : ∃ d more, kind.written lexeme = d :: more ∧
      piece d (more ++ writtenAfter ts trail) = .token kind lexeme more.length := by
  have hs := apart_writtenAfter htrail ts
  cases h with
  | newline => exact ⟨_, _, rfl, rfl⟩
  | string hbytes =>
    refine ⟨_, _, rfl, ?_⟩
    have htake : (lexeme ++ Text.quote :: writtenAfter ts trail).takeWhile isStringByte = lexeme :=
      ReadBack.takeWhile_append_stop hbytes (by rintro _ ⟨⟩; rfl)
    change stringPiece _ = _
    rw [List.append_assoc, List.singleton_append, stringPiece, htake, List.drop_left]
    simp
  | sign hsign => exact ⟨_, _, Kind.written_of_verbatim (sign_verbatim hsign) _, (sign_byte hsign).2.2 _⟩
  | number hnumeral =>
    obtain ⟨d, whole, fraction, rfl, _⟩ := id hnumeral
    obtain ⟨hd, hpiece⟩ := numberPiece_numeral hnumeral hs.endsNumber
    refine ⟨_, _, rfl, ?_⟩
    rw [piece_of_isWord _ (by simp [Text.isWord, hd]), if_pos hd, hpiece]
  | @phrase phrase _ hmem =>
    have hphrase := at_spelling hmem hs
    obtain ⟨more, hmore⟩ := Phrase.spelling_first hmem
    refine ⟨105, 115 :: Text.space :: more, by rw [Phrase.written_phrase hmem, hmore], ?_⟩
    rw [hmore, List.cons_append] at hphrase
    have hfirst : Text.isWord 105 = true := rfl
    have hdigit : ¬Text.isDigit 105 = true := by decide
    rw [piece_of_isWord _ hfirst, if_neg hdigit, wordPiece_phrase hphrase, List.length_append, Nat.add_sub_cancel]
  | word hfirst hat =>
    refine ⟨_, _, Kind.written_of_verbatim (Kind.ofWord_verbatim _) _, ?_⟩
    have htake : (rest.takeWhile Text.isWord ++ writtenAfter ts trail).takeWhile Text.isWord =
        rest.takeWhile Text.isWord :=
      ReadBack.takeWhile_append_stop (fun b hb => List.mem_takeWhile_imp hb) (hs.stop rfl)
    rw [piece_of_isWord _ (by simp [Text.isWord, hfirst]), if_neg (by simp [Text.isDigit_of_isAlpha hfirst]),
      wordPiece_word (at_written_eq_none htrail hfirst hreads hpaired hat), htake]

/-- The tokens of a source, each written behind a space, are read as they were. -/
theorem reads_writtenAfter {ts : List (Kind × Text)} : ∀ {s : Text}, Reads s ts → s.ReturnsPaired →
    Reads (writtenAfter ts trail) ts := by
  induction ts with
  | nil => exact fun _ _ => reads_spaces htrail
  | cons t ts ih =>
    intro s hreads hpaired
    obtain ⟨kind, lexeme⟩ := t
    obtain ⟨layout, c, rest, width, rfl, _, hpiece, hnext⟩ := hreads.cons_inv
    have hrest := Text.returnsPaired_behind hpaired
    obtain ⟨d, more, hwritten, hd⟩ := (piece_shape hpiece).piece_written htrail hnext hrest
    rw [writtenAfter_cons, hwritten, List.cons_append]
    refine .blank rfl (.token hd ?_)
    rw [List.drop_left]
    exact ih hnext (Text.returnsPaired_drop hrest width)

end

theorem Reads.of_space {s : Text} {ts : List (Kind × Text)} (h : Reads (Text.space :: s) ts) : Reads s ts := by
  cases h with
  | blank _ next => exact next
  | token hpiece => cases hpiece

theorem Reads.lex {s : Text} {ts : List (Kind × Text)} (h : Reads s ts) :
    ∃ tokens, EnglishScript.lex s = .ok tokens ∧ tokens.map Token.unplaced = ts ++ [(.eof, [])] := by
  obtain ⟨body, q, htokens, hbody⟩ := h.tokensFrom .start
  exact ⟨_, htokens, by rw [List.map_append, hbody]; rfl⟩

end Lexer

theorem Text.space_join {ts : List Text} (h : ts ≠ []) :
    Text.space :: Text.join (utf8 " ") ts = ts.flatMap (Text.space :: ·) := by
  fun_induction Text.join (utf8 " ") ts with
  | case1 => exact absurd rfl h
  | case2 t => simp
  | case3 t u ts ih =>
    have hspace : utf8 " " = [Text.space] := rfl
    rw [List.flatMap_cons, ← ih (by simp), hspace]
    simp

theorem Token.space_spaced {tokens : List Token} (h : tokens ≠ []) :
    Text.space :: Token.spaced tokens = tokens.flatMap fun t => Text.space :: t.kind.written t.lexeme := by
  rw [Token.spaced, Text.space_join (by simpa using h), List.flatMap_map]

namespace Lexer

variable {s : Text} {body : List Token}

theorem Reads.spaced_end (h : Reads s (body.map Token.unplaced)) (hs : s.ReturnsPaired) (q : Position) :
    Reads (Token.spaced (body ++ [Token.endAt q])) (body.map Token.unplaced) := by
  have htrail : ∀ b ∈ [Text.space], b = Text.space := by simp
  have hwritten := reads_writtenAfter htrail h hs
  apply Reads.of_space
  rw [Token.space_spaced (by simp), List.flatMap_append]
  rwa [writtenAfter, List.flatMap_map] at hwritten

theorem Reads.spaced_body (h : Reads s (body.map Token.unplaced)) (hs : s.ReturnsPaired) :
    Reads (Token.spaced body) (body.map Token.unplaced) := by
  cases hbody : body with
  | nil => exact .nil
  | cons t ts =>
    have htrail : ∀ b ∈ ([] : Text), b = Text.space := by simp
    have hwritten := reads_writtenAfter htrail h hs
    apply Reads.of_space
    rw [Token.space_spaced (by simp), ← hbody]
    rwa [writtenAfter, List.append_nil, List.flatMap_map] at hwritten

end Lexer

/-- The tokens of a source are read again from the text that writes them with single spaces between them, whether the space
in front of the end is written or not. -/
theorem lex_spaced {source : Text} {tokens : List Token} (hreturns : source.ReturnsPaired)
    (h : lex source = .ok tokens) : ∀ text ∈ [Token.spaced tokens, Token.spaced tokens.dropLast],
      ∃ again, lex text = .ok again ∧ again.map Token.unplaced = tokens.map Token.unplaced := by
  obtain ⟨body, q, rfl, hreads⟩ := Lexer.reads_of_tokensFrom h
  have hend : (body ++ [Token.endAt q]).map Token.unplaced = body.map Token.unplaced ++ [(.eof, [])] := by
    rw [List.map_append]
    rfl
  intro text htext
  rw [hend]
  simp only [List.dropLast_concat, List.mem_cons, List.not_mem_nil, or_false] at htext
  rcases htext with rfl | rfl
  · exact (hreads.spaced_end hreturns q).lex
  · exact (hreads.spaced_body hreturns).lex

/-- Words of a phrase that a line break keeps apart, behind a phrase with tabs and capital letters, and a word that stands
right behind a number. -/
theorem lex_spaced_broken_phrase :
    Text.ReturnsPaired (utf8 "IS \tless  Than is less\r\nthan 12is+\"a  b\"") ∧
      ∃ tokens, lex (utf8 "IS \tless  Than is less\r\nthan 12is+\"a  b\"") = .ok tokens ∧
        Token.spaced tokens = utf8 "is less than is less \n than 12 is + \"a  b\" " ∧
        ∃ again, lex (Token.spaced tokens) = .ok again ∧ again.map Token.unplaced = tokens.map Token.unplaced := by
  have hreturns : Text.ReturnsPaired (utf8 "IS \tless  Than is less\r\nthan 12is+\"a  b\"") := by decide +kernel
  have hlex : lex (utf8 "IS \tless  Than is less\r\nthan 12is+\"a  b\"") = .ok
      [⟨.isLessThan, utf8 "is less than", ⟨1, 1⟩⟩, ⟨.identifier, utf8 "is", ⟨1, 16⟩⟩, ⟨.identifier, utf8 "less", ⟨1, 19⟩⟩,
        ⟨.newline, utf8 "\n", ⟨1, 24⟩⟩, ⟨.identifier, utf8 "than", ⟨2, 1⟩⟩, ⟨.number, utf8 "12", ⟨2, 6⟩⟩,
        ⟨.identifier, utf8 "is", ⟨2, 8⟩⟩, ⟨.plus, utf8 "+", ⟨2, 10⟩⟩, ⟨.string, utf8 "a  b", ⟨2, 11⟩⟩,
        ⟨.eof, [], ⟨2, 17⟩⟩] := by
    decide +kernel
  exact ⟨hreturns, _, hlex, by decide +kernel, lex_spaced hreturns hlex _ (by simp)⟩

end EnglishScript
