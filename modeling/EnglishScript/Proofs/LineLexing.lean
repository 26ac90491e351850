import EnglishScript.Proofs.Completion
import EnglishScript.Proofs.Tiling

namespace EnglishScript

namespace Lexer

/-- No word and no phrase in front of the text runs into it. -/
structure Bounds (v : Text) : Prop where
  word : ∀ b ∈ v.head?, Text.isWord b = false
  gap : ∀ b ∈ v.head?, Phrase.isGap b = false

theorem bounds_cons {c : UInt8} (hword : Text.isWord c = false) (hgap : Phrase.isGap c = false) (rest : Text) :
    Bounds (c :: rest) := by
  constructor
  · rintro _ ⟨⟩
    exact hword
  · rintro _ ⟨⟩
    exact hgap

theorem Bounds.digit {v : Text} (hv : Bounds v) : ∀ b ∈ v.head?, Text.isDigit b = false :=
  fun b hb => (Bool.or_eq_false_iff.mp (hv.word b hb)).2

/-- Nothing in front of the text runs into it: besides words and phrases also no number, no character and no string. -/
structure Severs (v : Text) : Prop extends Bounds v where
  point : ∀ b ∈ v.head?, b ≠ 46
  ascii : ∀ b ∈ v.head?, b < 128
  unclosed : stringPiece v = .unterminated

theorem severs_cons {c : UInt8} {rest : Text} (hbounds : Bounds (c :: rest)) (hpoint : c ≠ 46) (hascii : c < 128)
    (hopen : stringPiece (c :: rest) = .unterminated) : Severs (c :: rest) := by
  refine ⟨hbounds, ?_, ?_, hopen⟩
  · rintro _ ⟨⟩
    exact hpoint
  · rintro _ ⟨⟩
    exact hascii

theorem severs_lf (rest : Text) : Severs (Text.lf :: rest) :=
  severs_cons (bounds_cons rfl rfl rest) (by decide) (by decide) rfl

end Lexer

namespace Phrase

variable {v : Text} (hv : Lexer.Bounds v)
include hv

theorem matchWord_append (w s : Text) : matchWord w (s ++ v) = (matchWord w s).map (· ++ v) := by
  unfold matchWord
  rw [Text.takeWhile_stop hv.word, Text.dropWhile_stop hv.word]
  split <;> rfl

theorem matchMore_append (words : List Text) (s : Text) :
    matchMore words (s ++ v) = (matchMore words s).map (· ++ v) := by
  induction words generalizing s with
  | nil => rfl
  | cons w words ih =>
    simp only [matchMore]
    rw [Text.dropWhile_stop hv.gap, matchWord_append hv]
    cases matchWord w (s.dropWhile isGap) with
    | none => rfl
    | some after => exact ih after

theorem matchWords_append (words : List Text) (s : Text) :
    matchWords words (s ++ v) = (matchWords words s).map (· ++ v) := by
  cases words with
  | nil => rfl
  | cons w words =>
    simp only [matchWords, matchWord_append hv]
    cases matchWord w s with
    | none => rfl
    | some after => exact matchMore_append hv words after

theorem firstMatch_append (phrases : List Phrase) (s : Text) :
    firstMatch phrases (s ++ v) = (firstMatch phrases s).map fun found => (found.1, found.2 ++ v) := by
  unfold firstMatch
  induction phrases with
  | nil => rfl
  | cons phrase rest ih =>
    rw [List.findSome?_cons, List.findSome?_cons, matchWords_append hv]
    cases matchWords phrase.words s with
    | none => exact ih
    | some after => rfl

end Phrase

namespace Lexer

/-- The bytes of a string run up to a quote, which closes it, or up to a line feed or the end of the text. -/
theorem stringPiece_bytes {body v : Text} (hbody : ∀ b ∈ body, isStringByte b = true)
    (hv : ∀ b ∈ v.head?, isStringByte b = false) :
    stringPiece (body ++ v) =
      if v.head? = some Text.quote then .token .string body (body.length + 1) else .unterminated := by
  have htake : (body ++ v).takeWhile isStringByte = body := by
    rw [Text.takeWhile_stop hv, List.takeWhile_eq_self_iff.mpr hbody]
  unfold stringPiece
  simp only [htake, List.drop_left]
  cases v with
  | nil => rfl
  | cons x v => simp only [List.head?_cons, Option.some.injEq]

theorem exists_string_bytes (rest : Text) : ∃ body v, rest = body ++ v ∧ (∀ b ∈ body, isStringByte b = true) ∧
    ∀ b ∈ v.head?, isStringByte b = false := by
  refine ⟨rest.takeWhile isStringByte, rest.dropWhile isStringByte, List.takeWhile_append_dropWhile.symm,
    fun b hb => List.mem_takeWhile_imp hb, fun b hb => ?_⟩
  have hstop := List.head?_dropWhile_not isStringByte rest
  rwa [Option.mem_def.mp hb] at hstop

theorem stringPiece_append_of_stop {body v : Text} (hbody : ∀ b ∈ body, isStringByte b = true) (hne : v ≠ [])
    (hv : ∀ b ∈ v.head?, isStringByte b = false) (w : Text) : stringPiece (body ++ v ++ w) = stringPiece (body ++ v) := by
  have hhead : (v ++ w).head? = v.head? := List.head?_append_of_ne_nil v hne
  rw [List.append_assoc, stringPiece_bytes hbody (by rwa [hhead]), hhead, stringPiece_bytes hbody hv]

theorem stringPiece_append_token {rest lexeme : Text} {kind : Kind} {width : Nat}
    (h : stringPiece rest = .token kind lexeme width) (w : Text) :
    stringPiece (rest ++ w) = .token kind lexeme width := by
  obtain ⟨body, v, rfl, hbody, hv⟩ := exists_string_bytes rest
  cases v with
  | nil =>
    rw [stringPiece_bytes hbody hv] at h
    cases h
  | cons x v => rw [stringPiece_append_of_stop hbody (List.cons_ne_nil x v) hv, h]

theorem stringPiece_append {w : Text} (hw : stringPiece w = .unterminated) (rest : Text) :
    stringPiece (rest ++ w) = stringPiece rest := by
  obtain ⟨body, v, rfl, hbody, hv⟩ := exists_string_bytes rest
  cases v with
  | nil =>
    obtain ⟨more, u, rfl, hmore, hu⟩ := exists_string_bytes w
    have hopen : u.head? ≠ some Text.quote := by
      intro hquote
      rw [stringPiece_bytes hmore hu, if_pos hquote] at hw
      cases hw
    have hall : ∀ b ∈ body ++ more, isStringByte b = true := List.forall_mem_append.mpr ⟨hbody, hmore⟩
    rw [List.append_nil, ← List.append_assoc, stringPiece_bytes hall hu, if_neg hopen]
    exact (stringPiece_bytes hbody hv).symm.trans (by rw [List.append_nil])
  | cons x v => exact stringPiece_append_of_stop hbody (List.cons_ne_nil x v) hv w

/-- A string that closes before `w` does not need it. -/
theorem stringPiece_cut {rest w lexeme : Text} {kind : Kind} {width : Nat}
    (h : stringPiece (rest ++ w) = .token kind lexeme width) (hwidth : width ≤ rest.length) :
    stringPiece rest = .token kind lexeme width := by
  obtain ⟨body, v, rfl, hbody, hv⟩ := exists_string_bytes rest
  cases v with
  | nil =>
    obtain ⟨more, u, rfl, hmore, hu⟩ := exists_string_bytes w
    have hall : ∀ b ∈ body ++ more, isStringByte b = true := List.forall_mem_append.mpr ⟨hbody, hmore⟩
    rw [List.append_nil, ← List.append_assoc, stringPiece_bytes hall hu] at h
    split at h
    next =>
      cases h
      simp only [List.length_append, List.append_nil] at hwidth
      omega
    next => cases h
  | cons x v => rwa [stringPiece_append_of_stop hbody (List.cons_ne_nil x v) hv] at h

theorem fraction_append {v : Text} (hv : Bounds v) {s : Text} (h : s ≠ [] ∨ ∀ b ∈ v.head?, b ≠ 46) :
    fraction (s ++ v) = fraction s := by
  match s with
  | [] =>
    cases v with
    | nil => rfl
    | cons x v =>
      have hx : x ≠ 46 := h.resolve_left (fun h => h rfl) x rfl
      simp [fraction, hx]
  | [c] =>
    by_cases hc : c = 46
    · subst hc
      cases v with
      | nil => rfl
      | cons x v => simp [fraction, hv.digit x rfl]
    · simp [fraction, hc]
  | c :: d :: rest =>
    by_cases hc : c = 46
    · subst hc
      simp only [List.cons_append, fraction]
      rw [Text.takeWhile_stop hv.digit]
    · simp [fraction, hc]

theorem wordPiece_append {v : Text} (hv : Bounds v) (c : UInt8) (rest : Text) :
    wordPiece c (rest ++ v) = wordPiece c rest := by
  have hat := Phrase.firstMatch_append hv Phrase.table (c :: rest)
  unfold wordPiece Phrase.at?
  rw [← List.cons_append, hat]
  cases Phrase.firstMatch Phrase.table (c :: rest) with
  | none =>
    simp only [Option.map_none]
    rw [Text.takeWhile_stop hv.word]
  | some found =>
    have hwidth : (rest ++ v).length - (found.2 ++ v).length = rest.length - found.2.length := by
      simp only [List.length_append]
      omega
    simp only [Option.map_some, hwidth]

theorem numberPiece_append {v : Text} (hv : Bounds v) (hpoint : ∀ b ∈ v.head?, b ≠ 46) (d : UInt8) (rest : Text) :
    numberPiece d (rest ++ v) = numberPiece d rest := by
  unfold numberPiece
  rw [Text.takeWhile_stop hv.digit, Text.dropWhile_stop hv.digit, fraction_append hv (Or.inr hpoint)]

/-- A number that ends before `v` does not need it, even if `v` starts with a point. -/
theorem numberPiece_cut {v : Text} (hv : Bounds v) {d : UInt8} {rest lexeme : Text} {kind : Kind} {width : Nat}
    (h : numberPiece d (rest ++ v) = .token kind lexeme width) (hwidth : width ≤ rest.length) :
    numberPiece d rest = .token kind lexeme width := by
  have hsplit : rest.takeWhile Text.isDigit ++ rest.dropWhile Text.isDigit = rest := List.takeWhile_append_dropWhile
  rw [← h]
  unfold numberPiece at h ⊢
  rw [Text.takeWhile_stop hv.digit, Text.dropWhile_stop hv.digit] at h ⊢
  cases hafter : rest.dropWhile Text.isDigit with
  | cons c more => rw [fraction_append hv (Or.inl (List.cons_ne_nil c more))]
  | nil =>
    -- the digits reach up to `v`, so nothing of `v` is taken for a fraction
    rw [hafter, List.append_nil] at hsplit
    rw [hafter, List.nil_append] at h
    have hlength : (rest.takeWhile Text.isDigit ++ fraction v).length ≤ rest.length := by
      cases h
      exact hwidth
    rw [hsplit, List.length_append] at hlength
    have hnone : fraction v = [] := List.eq_nil_of_length_eq_zero (by omega)
    rw [List.nil_append, hnone]
    rfl

theorem piece_of_layout {c : UInt8} (h : isLayout c = true) (rest : Text) : piece c rest = .blank :=
  if_pos h

/-- What severs the text behind it from the piece at its start does not matter to the piece. -/
theorem piece_append {v : Text} (hv : Severs v) (c : UInt8) (rest : Text) : piece c (rest ++ v) = piece c rest := by
  unfold piece
  rw [stringPiece_append hv.unclosed, numberPiece_append hv.toBounds hv.point, wordPiece_append hv.toBounds,
    Text.firstGlyph_append c rest hv.ascii]

theorem piece_append_token {v : Text} (hv : Bounds v) (hpoint : ∀ b ∈ v.head?, b ≠ 46) {c : UInt8} {rest lexeme : Text}
    {kind : Kind} {width : Nat} (h : piece c rest = .token kind lexeme width) :
    piece c (rest ++ v) = .token kind lexeme width := by
  rcases piece_class c with ⟨_, hp⟩ | ⟨_, hp⟩ | ⟨_, hp⟩ | ⟨sign, _, hp⟩ | ⟨_, hp⟩ | ⟨_, hp⟩ | ⟨_, hp⟩ <;> rw [hp] at h ⊢
  · cases h
  · exact h
  · exact stringPiece_append_token h v
  · exact h
  · rwa [numberPiece_append hv hpoint]
  · rwa [wordPiece_append hv]
  · cases h

/-- A token that ends before `v` does not need it. -/
theorem piece_cut {v : Text} (hv : Bounds v) {c : UInt8} {rest lexeme : Text} {kind : Kind} {width : Nat}
    (h : piece c (rest ++ v) = .token kind lexeme width) (hwidth : width ≤ rest.length) :
    piece c rest = .token kind lexeme width := by
  rcases piece_class c with ⟨_, hp⟩ | ⟨_, hp⟩ | ⟨_, hp⟩ | ⟨sign, _, hp⟩ | ⟨_, hp⟩ | ⟨_, hp⟩ | ⟨_, hp⟩ <;> rw [hp] at h ⊢
  · cases h
  · exact h
  · exact stringPiece_cut h hwidth
  · exact h
  · exact numberPiece_cut hv h hwidth
  · rwa [wordPiece_append hv] at h
  · cases h

end Lexer

/-- The place `n` lines further down. -/
def Position.down (n : Int) (p : Position) : Position :=
  ⟨p.line + n, p.column⟩

/-- The token `n` lines further down. -/
def Token.down (n : Int) (t : Token) : Token :=
  { t with pos := t.pos.down n }

/-- The error `n` lines further down. -/
def LexError.down (n : Int) : LexError → LexError
  | .unexpectedCharacter p char => .unexpectedCharacter (p.down n) char
  | .unterminatedString p => .unterminatedString (p.down n)

theorem Position.advance_down (n : Int) (p : Position) (t : Text) : (p.down n).advance t = (p.advance t).down n := by
  unfold Position.advance
  generalize t.glyphs = gs
  induction gs generalizing p with
  | nil => rfl
  | cons g rest ih =>
    have hstep : (p.down n).step g = (p.step g).down n := by
      unfold Position.step Position.down
      split
      · simp only [Position.mk.injEq, and_true]
        omega
      · rfl
    rw [List.foldl_cons, List.foldl_cons, hstep, ih]

/-- The tokens of a text further down, or its error there. -/
def lexedDown (n : Int) : Except LexError (List Token) → Except LexError (List Token)
  | .ok tokens => .ok (tokens.map (Token.down n))
  | .error e => .error (e.down n)

namespace Lexer

theorem tokensFrom_down (n : Int) (skip : Nat) (p : Position) (s : Text) :
    tokensFrom skip (p.down n) s = lexedDown n (tokensFrom skip p s) := by
  fun_induction tokensFrom skip p s with
  | case1 skip p => simp only [tokensFrom]; rfl
  | case2 p skip c rest ih => rw [tokensFrom, ih]
  | case3 p c rest hpiece ih => rw [tokensFrom, hpiece, Position.advance_down, ih]
  | case4 p c rest kind lexeme width hpiece ih =>
    rw [tokensFrom, hpiece]
    simp only
    rw [Position.advance_down, ih]
    cases tokensFrom width (p.advance (c :: rest.take width)) rest <;> rfl
  | case5 p c rest char hpiece => rw [tokensFrom, hpiece]; rfl
  | case6 p c rest hpiece => rw [tokensFrom, hpiece]; rfl

/-- The tokens of a text, and the same tokens before what stands behind it. No string is open at its end, so nothing is
asked of the bytes behind but that no word, phrase or number runs into them. -/
theorem tokensFrom_append_ok {v : Text} (hv : Bounds v) (hpoint : ∀ b ∈ v.head?, b ≠ 46) {skip : Nat} {p : Position}
    {a : Text} : ∀ {tokens : List Token}, tokensFrom skip p a = .ok tokens → skip ≤ a.length →
      ∃ ts q, tokens = ts ++ [Token.endAt q] ∧ Endless ts ∧ q.line = p.line + Text.lineFeeds (a.drop skip) ∧
        tokensFrom skip p (a ++ v) = (tokensFrom 0 q v).map (ts ++ ·) := by
  fun_induction tokensFrom skip p a with
  | case1 skip p =>
    intro tokens h hskip
    obtain rfl : skip = 0 := by simpa using hskip
    cases Except.ok.inj h
    refine ⟨[], p, rfl, endless_nil, by simp [Text.lineFeeds], ?_⟩
    cases htokens : tokensFrom 0 p v <;> simp [htokens, Except.map]
  | case2 p skip c rest ih =>
    intro tokens h hskip
    exact ih h (Nat.le_of_succ_le_succ hskip)
  | case3 p c rest hpiece ih =>
    intro tokens h _
    obtain ⟨ts, q, htokens, hendless, hq, hjoined⟩ := ih h (Nat.zero_le _)
    have hlayout := blank_layout hpiece
    have hc : c ≠ Text.lf := by
      rintro rfl
      cases hlayout
    have hfeeds : Text.lineFeeds (c :: rest) = Text.lineFeeds rest := List.count_cons_of_ne hc
    have hline : (p.advance [c]).line = p.line := by
      rw [Position.advance_line]
      simp [Text.lineFeeds, hc]
    refine ⟨ts, q, htokens, hendless, by rw [hq, hline, List.drop_zero, List.drop_zero, hfeeds], ?_⟩
    rw [List.cons_append, tokensFrom, piece_of_layout hlayout]
    exact hjoined
  | case4 p c rest kind lexeme width hpiece ih =>
    intro tokens h _
    obtain ⟨_, hwidth, hcovers⟩ := piece_fits hpiece
    have hfeeds :
        Text.lineFeeds (c :: rest) = Text.lineFeeds (c :: rest.take width) + Text.lineFeeds (rest.drop width) := by
      simp only [Text.lineFeeds]
      rw [← List.count_append, List.cons_append, List.take_append_drop]
    rw [List.cons_append, tokensFrom, piece_append_token hv hpoint hpiece]
    simp only [List.take_append_of_le_length hwidth]
    cases hrest : tokensFrom width (p.advance (c :: rest.take width)) rest with
    | error e => rw [hrest] at h; cases h
    | ok more =>
      rw [hrest] at h
      cases Except.ok.inj h
      obtain ⟨ts, q, rfl, hendless, hq, hjoined⟩ := ih hrest hwidth
      rw [hjoined]
      refine ⟨⟨kind, lexeme, p⟩ :: ts, q, rfl, endless_cons.mpr ⟨?_, hendless⟩, ?_, ?_⟩
      · rintro rfl
        exact hcovers p
      · rw [Position.advance_line] at hq
        rw [hq, List.drop_zero, hfeeds]
        omega
      · cases tokensFrom 0 q v <;> rfl
  | case5 p c rest char hpiece =>
    intro tokens h
    cases h
  | case6 p c rest hpiece =>
    intro tokens h
    cases h

/-- An error is the same whatever stands behind the text, if it is severed from it. -/
theorem tokensFrom_append_error {v : Text} (hv : Severs v) {e : LexError} {skip : Nat} {p : Position} {a : Text} :
    tokensFrom skip p a = .error e → skip ≤ a.length → tokensFrom skip p (a ++ v) = .error e := by
  fun_induction tokensFrom skip p a with
  | case1 skip p =>
    intro h
    cases h
  | case2 p skip c rest ih =>
    intro h hskip
    exact ih h (Nat.le_of_succ_le_succ hskip)
  | case3 p c rest hpiece ih =>
    intro h _
    rw [List.cons_append, tokensFrom, piece_append hv, hpiece]
    exact ih h (Nat.zero_le _)
  | case4 p c rest kind lexeme width hpiece ih =>
    intro h _
    obtain ⟨_, hwidth, _⟩ := piece_fits hpiece
    rw [List.cons_append, tokensFrom, piece_append hv, hpiece]
    simp only [List.take_append_of_le_length hwidth]
    cases hrest : tokensFrom width (p.advance (c :: rest.take width)) rest with
    | ok more => rw [hrest] at h; cases h
    | error e' =>
      rw [hrest] at h
      cases h
      rw [ih hrest hwidth]
      rfl
  | case5 p c rest char hpiece =>
    intro h _
    rw [List.cons_append, tokensFrom, piece_append hv, hpiece]
    exact h
  | case6 p c rest hpiece =>
    intro h _
    rw [List.cons_append, tokensFrom, piece_append hv, hpiece]
    exact h

end Lexer

theorem lex_endless {source : Text} {tokens : List Token} (h : lex source = .ok tokens) :
    ∃ ts q, tokens = ts ++ [Token.endAt q] ∧ Endless ts := by
  obtain ⟨ts, q, htokens, hts, _⟩ := Lexer.tokensFrom_append_ok (Lexer.severs_lf []).toBounds (Lexer.severs_lf []).point h
    (Nat.zero_le _)
  exact ⟨ts, q, htokens, hts⟩

theorem lex_line {a : Text} {tokens : List Token} (h : lex a = .ok tokens) (b : Text) :
    ∃ ts q, tokens = ts ++ [Token.endAt q] ∧ Endless ts ∧
      lex (a ++ Text.lf :: b) = (lexedDown (1 + a.lineFeeds) (lex b)).map (ts ++ ⟨.newline, [Text.lf], q⟩ :: ·) := by
  have hsevers := Lexer.severs_lf b
  obtain ⟨ts, q, htokens, hts, hq, hjoined⟩ := Lexer.tokensFrom_append_ok hsevers.toBounds hsevers.point h (Nat.zero_le _)
  have hplace : q.advance [Text.lf] = Position.start.down (1 + a.lineFeeds) := by
    rw [List.drop_zero] at hq
    rw [Position.advance_lf]
    simp only [Position.advance, Text.glyphs, Text.glyphsFrom, List.foldl_nil, Position.down, Position.start,
      Position.mk.injEq, and_true] at hq ⊢
    omega
  have hfeed : Lexer.tokensFrom 0 q (Text.lf :: b) =
      (lexedDown (1 + a.lineFeeds) (lex b)).map (⟨.newline, [Text.lf], q⟩ :: ·) := by
    rw [lex, ← Lexer.tokensFrom_down, ← hplace]
    rfl
  refine ⟨ts, q, htokens, hts, hjoined.trans ?_⟩
  rw [hfeed]
  cases lexedDown (1 + a.lineFeeds) (lex b) <;> rfl

theorem lex_line_error {a : Text} {e : LexError} (h : lex a = .error e) (b : Text) :
    lex (a ++ Text.lf :: b) = .error e :=
  Lexer.tokensFrom_append_error (Lexer.severs_lf b) h (Nat.zero_le _)

/-- Sources are read line by line. Two of them with a line feed between them give the tokens of the first, with a newline
token where its end token stood, and then the tokens or the error of the second that many lines further down. If the first
has an error, it is the error of both. -/
theorem lex_joined (a b : Text) :
    (∀ tokens, lex a = .ok tokens → ∃ ts q, tokens = ts ++ [Token.endAt q] ∧
      lex (a ++ Text.lf :: b) = (lexedDown (1 + a.lineFeeds) (lex b)).map (ts ++ ⟨.newline, [Text.lf], q⟩ :: ·)) ∧
    ∀ e, lex a = .error e → lex (a ++ Text.lf :: b) = .error e := by
  refine ⟨fun tokens h => ?_, fun e h => lex_line_error h b⟩
  obtain ⟨ts, q, htokens, _, hjoined⟩ := lex_line h b
  exact ⟨ts, q, htokens, hjoined⟩

end EnglishScript
