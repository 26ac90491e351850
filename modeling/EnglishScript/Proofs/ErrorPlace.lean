import EnglishScript.Proofs.LineLexing

namespace EnglishScript

namespace Lexer

/-- The characters that a token starts with, and those that stand between tokens. -/
def admits (c : Char) : Bool :=
  [' ', '\t', '\r', '\n', '"', '+', '-', '*', '/', '=', '(', ')', '_'].contains c || c.isDigit || c.isAlpha

/-- The offset stands at the place, and the text before it has tokens. -/
structure Reaches (s : Text) (n : Nat) (place : Position) : Prop where
  inside : n ≤ s.length
  behind : Position.behind (s.take n) = place
  readable : ∃ tokens, lex (s.take n) = .ok tokens

end Lexer

/-- What is wrong at an offset: a quote has no other one behind it on its line, or a character starts no token. -/
def LexError.Blames (s : Text) (n : Nat) : LexError → Prop
  | .unterminatedString _ =>
    ∃ rest, s.drop n = Text.quote :: rest ∧ ∀ i, rest[i]? = some Text.quote → Text.lf ∈ rest.take i
  | .unexpectedCharacter _ char => (Text.chars (s.drop n)).head? = some char ∧ Lexer.admits char = false

namespace Lexer

theorem ascii_of_admits {c : Char} (h : admits c = true) : 0 < c.toNat ∧ c.toNat < 128 := by
  have hrange {low high : UInt32} (hlow : low ≤ c.val) (hhigh : c.val ≤ high) : low.toNat ≤ c.toNat ∧ c.toNat ≤ high.toNat :=
    ⟨UInt32.le_iff_toNat_le.mp hlow, UInt32.le_iff_toNat_le.mp hhigh⟩
  simp only [admits, Bool.or_eq_true, List.contains_iff_mem, List.mem_cons, List.not_mem_nil, or_false] at h
  rcases h with (h | h) | h
  · rcases h with rfl | rfl | rfl | rfl | rfl | rfl | rfl | rfl | rfl | rfl | rfl | rfl | rfl <;> decide
  · obtain ⟨hlow, hhigh⟩ := (Bool.and_eq_true _ _).mp h
    have hdigit : 48 ≤ c.toNat ∧ c.toNat ≤ 57 := hrange (of_decide_eq_true hlow) (of_decide_eq_true hhigh)
    omega
  · rcases (Bool.or_eq_true c.isUpper c.isLower).mp h with h | h
    · obtain ⟨hlow, hhigh⟩ := of_decide_eq_true (p := 'A'.val ≤ c.val ∧ c.val ≤ 'Z'.val) h
      have hupper : 65 ≤ c.toNat ∧ c.toNat ≤ 90 := hrange hlow hhigh
      omega
    · obtain ⟨hlow, hhigh⟩ := (Bool.and_eq_true _ _).mp h
      have hlower : 97 ≤ c.toNat ∧ c.toNat ≤ 122 := hrange (of_decide_eq_true hlow) (of_decide_eq_true hhigh)
      omega

/-- Whether a byte is layout, a line feed, or the first byte of a token. -/
def opens (c : UInt8) : Bool :=
  isLayout c || c == Text.lf || c == Text.quote || (sign? c).isSome || Text.isWord c

theorem admits_ascii : ∀ n < 128, opens (UInt8.ofNat n) = false → admits (Char.ofNat n) = false := by
  decide +kernel

theorem admits_ofNat {n : Nat} (h : 128 ≤ n) : admits (Char.ofNat n) = false := by
  refine Bool.eq_false_iff.mpr fun hadmits => ?_
  have hascii := ascii_of_admits hadmits
  rcases Text.toNat_ofNat n with hn | hn <;> omega

theorem admits_firstGlyph {c : UInt8} (hc : opens c = false) (rest : Text) :
    admits (Text.firstGlyph c rest).1.toChar = false := by
  rcases Text.firstGlyph_cases c rest with ⟨hascii, heq⟩ | ⟨_, heq⟩ | ⟨_, _, n, _, _, _, hn, heq⟩ <;> rw [heq]
  · have hsmall : c.toNat < 128 := UInt8.lt_iff_toNat_lt.mp hascii
    exact admits_ascii c.toNat hsmall (by rwa [UInt8.ofNat_toNat])
  · exact admits_ofNat (by decide)
  · exact admits_ofNat hn

theorem bounds_of_opens {c : UInt8} (hc : opens c = false) (rest : Text) : Bounds (c :: rest) := by
  simp only [opens, Bool.or_eq_false_iff] at hc
  obtain ⟨⟨⟨⟨hlayout, _⟩, _⟩, _⟩, hword⟩ := hc
  have hgap : Phrase.isGap c = false := by
    simp only [isLayout, Bool.or_eq_false_iff] at hlayout
    simp [Phrase.isGap, hlayout]
  exact bounds_cons hword hgap rest

theorem ascii_of_opens {c : UInt8} (h : opens c = true) : c < 128 := by
  simp only [opens, Bool.or_eq_true, beq_iff_eq] at h
  rcases h with (((h | rfl) | rfl) | h) | h
  · exact ascii_of_isLayout h
  · decide
  · decide
  · obtain ⟨kind, hkind⟩ := Option.isSome_iff_exists.mp h
    exact ascii_of_sign hkind
  · rcases Bool.or_eq_true_iff.mp h with h | h
    · exact ascii_of_isAlpha h
    · exact ascii_of_isDigit h

/-- A byte that opens nothing starts an unexpected character, and so does no other byte. -/
theorem piece_unexpected {c : UInt8} {rest : Text} {char : Char} :
    piece c rest = .unexpected char ↔ opens c = false ∧ char = (Text.firstGlyph c rest).1.toChar := by
  constructor
  · intro h
    rcases piece_class c with ⟨_, hp⟩ | ⟨_, hp⟩ | ⟨_, hp⟩ | ⟨sign, _, hp⟩ | ⟨_, hp⟩ | ⟨_, hp⟩ | ⟨hc, hp⟩ <;> rw [hp] at h
    · cases h
    · cases h
    · obtain ⟨body, v, rfl, hbody, hv⟩ := exists_string_bytes rest
      rw [stringPiece_bytes hbody hv] at h
      split at h <;> cases h
    · cases h
    · cases h
    · unfold wordPiece at h
      split at h <;> cases h
    · cases h
      obtain ⟨hlayout, hlf, hquote, hsign, hword⟩ := hc
      exact ⟨by simp [opens, hlayout, hlf, hquote, hsign, hword], rfl⟩
  · rintro ⟨hc, rfl⟩
    simp only [opens, Bool.or_eq_false_iff, beq_eq_false_iff_ne, ne_eq, Option.isSome_eq_false_iff,
      Option.isNone_iff_eq_none, Text.isWord] at hc
    obtain ⟨⟨⟨⟨hlayout, hlf⟩, hquote⟩, hsign⟩, halpha, hdigit⟩ := hc
    simp [piece, hlayout, hlf, hquote, hsign, halpha, hdigit]

theorem quote_of_unterminated {c : UInt8} {rest : Text} (h : piece c rest = .unterminated) :
    c = Text.quote ∧ stringPiece rest = .unterminated := by
  rcases piece_class c with ⟨_, hp⟩ | ⟨_, hp⟩ | ⟨hc, hp⟩ | ⟨sign, _, hp⟩ | ⟨_, hp⟩ | ⟨_, hp⟩ | ⟨_, hp⟩ <;> rw [hp] at h
  · cases h
  · cases h
  · exact ⟨hc, h⟩
  · cases h
  · cases h
  · unfold wordPiece at h
    split at h <;> cases h
  · cases h

theorem lf_of_unterminated {rest : Text} (h : stringPiece rest = .unterminated) {i : Nat}
    (hi : rest[i]? = some Text.quote) : Text.lf ∈ rest.take i := by
  obtain ⟨body, v, rfl, hbody, hv⟩ := exists_string_bytes rest
  have hlate : body.length ≤ i := by
    by_contra hearly
    rw [List.getElem?_append_left (by omega)] at hi
    exact absurd (hbody _ (List.mem_of_getElem? hi)) (by decide)
  rw [List.getElem?_append_right hlate] at hi
  rw [stringPiece_bytes hbody hv] at h
  cases v with
  | nil => cases hi
  | cons x v =>
    have hx : x ≠ Text.quote := by
      rintro rfl
      cases h
    have hlf : x = Text.lf := by
      have hstop := hv x rfl
      simp only [isStringByte, Bool.and_eq_false_iff, bne_eq_false_iff_eq] at hstop
      exact hstop.resolve_left hx
    have hbehind : body.length < i := by
      rcases Nat.lt_or_eq_of_le hlate with hlt | heq
      · exact hlt
      · rw [← heq, Nat.sub_self] at hi
        exact absurd (Option.some.inj hi) hx
    rw [List.take_append, hlf]
    obtain ⟨k, hk⟩ : ∃ k, i - body.length = k + 1 := ⟨i - body.length - 1, by omega⟩
    rw [hk, List.take_succ_cons]
    simp

/-- The error that a piece is, at the given place. -/
def Piece.error? (p : Position) : Piece → Option LexError
  | .unexpected char => some (.unexpectedCharacter p char)
  | .unterminated => some (.unterminatedString p)
  | _ => none

theorem bounds_of_error {p : Position} {c : UInt8} {rest : Text} {e : LexError} (h : (piece c rest).error? p = some e) :
    Bounds (c :: rest) := by
  cases hpiece : piece c rest with
  | blank => rw [hpiece] at h; cases h
  | token kind lexeme width => rw [hpiece] at h; cases h
  | unexpected char => exact bounds_of_opens (piece_unexpected.mp hpiece).1 rest
  | unterminated =>
    rw [(quote_of_unterminated hpiece).1]
    exact bounds_cons rfl rfl rest

theorem ascii_of_readable {p : Position} {s : Text} {tokens : List Token} (h : tokensFrom 0 p s = .ok tokens) :
    ∀ b ∈ s.head?, b < 128 := by
  cases s with
  | nil => simp
  | cons c rest =>
    rintro _ ⟨⟩
    cases hc : opens c with
    | true => exact ascii_of_opens hc
    | false =>
      rw [tokensFrom, piece_unexpected.mpr ⟨hc, rfl⟩] at h
      cases h

/-- An error cuts the text in two: what stands before it has tokens, and what stands behind starts with a piece that is
the error. -/
theorem tokensFrom_error {e : LexError} {skip : Nat} {p : Position} {s : Text} : tokensFrom skip p s = .error e →
    ∃ u c rest, s.drop skip = u ++ c :: rest ∧ (∃ tokens, tokensFrom 0 p u = .ok tokens) ∧
      (piece c rest).error? (p.advance u) = some e := by
  fun_induction tokensFrom skip p s with
  | case1 skip p =>
    intro h
    cases h
  | case2 p skip c rest ih => exact ih
  | case3 p c rest hpiece ih =>
    intro h
    obtain ⟨u, d, more, hrest, ⟨tokens, hu⟩, he⟩ := ih h
    rw [List.drop_zero] at hrest
    refine ⟨c :: u, d, more, by rw [hrest]; rfl, ⟨tokens, ?_⟩, ?_⟩
    · rw [tokensFrom, piece_of_layout (blank_layout hpiece)]
      exact hu
    · rwa [← List.singleton_append, Position.advance_append p [c] (ascii_of_readable hu)]
  | case4 p c rest kind lexeme width hpiece ih =>
    intro h
    obtain ⟨_, hwidth, _⟩ := piece_fits hpiece
    cases htail : tokensFrom width (p.advance (c :: rest.take width)) rest with
    | ok more => rw [htail] at h; cases h
    | error e' =>
      rw [htail] at h
      cases h
      obtain ⟨u, d, more, hrest, ⟨tokens, hu⟩, he⟩ := ih htail
      have hlength : (rest.take width).length = width := List.length_take_of_le hwidth
      have hsplit : rest = rest.take width ++ u ++ d :: more := by
        rw [List.append_assoc, ← hrest, List.take_append_drop]
      -- the token ends before the error, so it is read without it as well
      have hcut : piece c (rest.take width ++ u) = .token kind lexeme width := by
        rw [hsplit] at hpiece
        exact piece_cut (bounds_of_error he) hpiece (by rw [List.length_append, hlength]; omega)
      refine ⟨c :: (rest.take width ++ u), d, more, ?_, ⟨⟨kind, lexeme, p⟩ :: tokens, ?_⟩, ?_⟩
      · rw [List.drop_zero, List.cons_append, ← hsplit]
      · rw [tokensFrom, hcut]
        simp only
        rw [List.take_left' hlength, tokensFrom_skip, List.drop_left' hlength, hu]
        rfl
      · rwa [← List.cons_append, Position.advance_append p (c :: rest.take width) (ascii_of_readable hu)]
  | case5 p c rest char hpiece =>
    intro h
    cases h
    exact ⟨[], c, rest, rfl, ⟨_, rfl⟩, by rw [hpiece]; rfl⟩
  | case6 p c rest hpiece =>
    intro h
    cases h
    exact ⟨[], c, rest, rfl, ⟨_, rfl⟩, by rw [hpiece]; rfl⟩

/-- Texts with tokens, one of them longer than the other, do not end at the same place. A byte that is not ASCII would start
an unexpected character behind the shorter one, so the longer one goes on between two glyphs. -/
theorem behind_ne {u v : Text} {x : UInt8} {ts us : List Token} (hu : lex u = .ok ts) (huv : lex (u ++ x :: v) = .ok us) :
    Position.behind (u ++ x :: v) ≠ Position.behind u := by
  by_cases hx : x < 128
  · rw [← Position.behind_advance u (Text.ascii_head hx v)]
    exact Position.advance_ne_self _ (List.cons_ne_nil x v)
  · exfalso
    have hopens : opens x = false := Bool.eq_false_iff.mpr fun h => hx (ascii_of_opens h)
    have hpoint : ∀ b ∈ (x :: v).head?, b ≠ 46 := by
      rintro _ ⟨⟩ rfl
      exact hx (by decide)
    obtain ⟨_, q, _, _, _, hjoined⟩ := tokensFrom_append_ok (bounds_of_opens hopens v) hpoint hu (Nat.zero_le _)
    rw [tokensFrom, piece_unexpected.mpr ⟨hopens, rfl⟩] at hjoined
    cases huv.symm.trans hjoined

theorem Reaches.not_lt {s : Text} {n m : Nat} {place : Position} (hn : Reaches s n place) (hm : Reaches s m place) :
    ¬n < m := by
  intro hlt
  obtain ⟨ts, hts⟩ := hn.readable
  obtain ⟨us, hus⟩ := hm.readable
  have hinside := hm.inside
  have hsplit : s.take m = s.take n ++ s[n] :: (s.drop (n + 1)).take (m - (n + 1)) := by
    obtain ⟨k, rfl⟩ : ∃ k, m = n + (k + 1) := ⟨m - n - 1, by omega⟩
    rw [List.take_add, List.drop_eq_getElem_cons (by omega), List.take_succ_cons]
    congr 3
    omega
  rw [hsplit] at hus
  exact behind_ne hts hus (by rw [← hsplit, hm.behind, hn.behind])

end Lexer

/-- The error of a source stands at exactly one offset that has tokens before it, and there a string does not close on its
line or a character starts no token. -/
theorem lex_error_place {s : Text} {e : LexError} (h : lex s = .error e) :
    ∃ n, Lexer.Reaches s n e.pos ∧ e.Blames s n ∧ ∀ m, Lexer.Reaches s m e.pos → m = n := by
  obtain ⟨u, c, rest, hs, ⟨tokens, hu⟩, he⟩ := Lexer.tokensFrom_error h
  rw [List.drop_zero] at hs
  subst hs
  rw [Position.start_advance] at he
  have hplace : Position.behind u = e.pos ∧ e.Blames (u ++ c :: rest) u.length := by
    unfold LexError.Blames
    rw [List.drop_left]
    cases hpiece : Lexer.piece c rest with
    | blank => rw [hpiece] at he; cases he
    | token kind lexeme width => rw [hpiece] at he; cases he
    | unexpected char =>
      rw [hpiece] at he
      cases he
      obtain ⟨hopens, rfl⟩ := Lexer.piece_unexpected.mp hpiece
      exact ⟨rfl, rfl, Lexer.admits_firstGlyph hopens rest⟩
    | unterminated =>
      rw [hpiece] at he
      cases he
      obtain ⟨rfl, hopen⟩ := Lexer.quote_of_unterminated hpiece
      exact ⟨rfl, rest, rfl, fun i hi => Lexer.lf_of_unterminated hopen hi⟩
  have hreaches : Lexer.Reaches (u ++ c :: rest) u.length e.pos :=
    ⟨by simp, by rw [List.take_left]; exact hplace.1, tokens, by rw [List.take_left]; exact hu⟩
  refine ⟨u.length, hreaches, hplace.2, fun m hm => ?_⟩
  exact Nat.le_antisymm (Nat.le_of_not_lt (hreaches.not_lt hm)) (Nat.le_of_not_lt (hm.not_lt hreaches))

/-- A point without a digit behind it, on a line with a stray byte in a string, the start of a phrase and a number. -/
theorem lex_error_place_point :
    let s := utf8 "\"é" ++ 255 :: utf8 "\" is not 1.x"
    let e := LexError.unexpectedCharacter ⟨1, 14⟩ '.'
    lex s = .error e ∧ ∃ n, Lexer.Reaches s n e.pos ∧ e.Blames s n ∧ ∀ m, Lexer.Reaches s m e.pos → m = n := by
  have h : lex (utf8 "\"é" ++ 255 :: utf8 "\" is not 1.x") = .error (.unexpectedCharacter ⟨1, 14⟩ '.') := by decide +kernel
  exact ⟨h, lex_error_place h⟩

end EnglishScript
