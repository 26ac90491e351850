import EnglishScript.Proofs.Completion
import EnglishScript.Proofs.DecimalReading
import EnglishScript.Proofs.TokenText

namespace EnglishScript

/-- A node whose text belongs to the source language: it is no comparison, and if it is a number then it is zero or is
written without an exponent. -/
def Node.Plain : Node → Prop
  | .expr (.operation .comparison _ _ _) => False
  | .expr (.number _ value) => value == 0 ∨ (1e-4 ≤ value ∧ value < 1e16)
  | _ => True

/-- The tokens of the text of an expression, without their places. -/
def Expr.tokens : Expr → List (Kind × Text)
  | .number _ value => [(.number, pythonFloat value)]
  | .string _ value => [(.string, value)]
  | .var name => [(.identifier, name.lexeme)]
  | .operation form left op right =>
    (.lparen, utf8 "(") :: (left.tokens ++ (op.kind, form.symbol op) :: (right.tokens ++ [(.rparen, utf8 ")")]))
  | .hole => []

theorem isNumeral_withPoint {whole fraction : Text} (hne : whole ≠ []) (hwhole : ∀ b ∈ whole, Text.isDigit b = true)
    (hfraction : Numeral.IsFraction fraction) : Text.IsNumeral (withPoint (whole ++ fraction)) := by
  obtain ⟨ds, htext, hds, hdigits⟩ := Numeral.withPoint_digits hwhole hfraction
  obtain ⟨d, more, rfl⟩ := List.exists_cons_of_ne_nil hne
  obtain ⟨c, digits, rfl⟩ := List.exists_cons_of_ne_nil hds
  obtain ⟨hd, hmore⟩ := List.forall_mem_cons.mp hwhole
  exact ⟨d, more, 46 :: c :: digits, htext, hd, hmore, Or.inr ⟨c, digits, rfl, hdigits⟩⟩

theorem Node.Plain.no_exponent {t : Token} {value : Float} (hplain : Node.Plain (.expr (.number t value))) {b : Binary}
    (hread : Reading.ofFloat value = .finite b) (hpos : b.negative = false) : ¬(b.isTiny || b.isHuge) = true := by
  rcases hplain with hzero | ⟨hlow, hhigh⟩
  · have hread' : Reading.ofFloat 0 = .finite ⟨false, 0, -1074, false⟩ := by decide +kernel
    have hmagnitude := (Rounding.beq_iff hread hpos hread' rfl).mp hzero
    intro hlarge
    have hmagnitude' := Rounding.magnitude_pos (Binary.mantissa_ne_zero hlarge)
    rw [hmagnitude, Binary.magnitude, Nat.cast_zero, zero_mul] at hmagnitude'
    exact lt_irrefl _ hmagnitude'
  · have hread₁ : Reading.ofFloat 1e-4 = .finite Binary.leastPositional := by decide +kernel
    have hread₂ : Reading.ofFloat 1e16 = .finite Binary.leastHuge := by decide +kernel
    have hlow' := (Rounding.le_iff hread₁ rfl hread hpos).mp hlow
    have hhigh' := (Rounding.lt_iff hread hpos hread₂ rfl).mp hhigh
    rw [Binary.magnitude_leastHuge] at hhigh'
    rw [Bool.or_eq_true, Binary.isTiny_iff, Binary.isHuge_iff]
    rintro (⟨_, hlt⟩ | hle)
    · exact absurd (hlt.trans Binary.lt_magnitude_leastPositional) (not_lt.mpr hlow')
    · exact absurd hhigh' (not_lt.mpr hle)

theorem Node.Plain.isNumeral {t : Token} {value : Float} (hplain : Node.Plain (.expr (.number t value))) {b : Binary}
    (hread : Reading.ofFloat value = .finite b) (hpos : b.negative = false) : Text.IsNumeral (pythonFloat value) := by
  obtain ⟨whole, fraction, htext, hne, hwhole, hfraction⟩ := b.positional_digits
  rw [pythonFloat_eq hread, Binary.signed, if_neg (by simp [hpos]), Binary.unsignedText,
    if_neg (hplain.no_exponent hread hpos), htext]
  exact isNumeral_withPoint hne hwhole hfraction

namespace Lexer

/-- The operators whose symbol is also their spelling in a source, with their kinds. -/
def signs : List (Text × Kind) :=
  [(utf8 "+", .plus), (utf8 "-", .minus), (utf8 "*", .multiply), (utf8 "/", .divide), (utf8 "and", .and), (utf8 "or", .or)]

theorem symbol_mem_signs {form : Form} (hform : form ≠ .comparison) {op : Token} {kind : Kind} (hk : kind ∈ form.operators)
    (hop : op.Is kind) : (form.symbol op, op.kind) ∈ signs := by
  have hall : ∀ x ∈ ReadBack.operators, x.2.1 ≠ .comparison → (x.1, x.2.2) ∈ signs := by decide
  exact hall _ (ReadBack.symbol_mem_operators hk hop) hform

/-- What may stand behind the text of an expression: nothing, a closing parenthesis, or one of the operators above. -/
def Follows (rest : Text) : Prop :=
  rest = [] ∨ (∃ more, rest = 41 :: more) ∨ ∃ sign ∈ signs, ∃ more, rest = Text.space :: (sign.1 ++ Text.space :: more)

theorem Follows.stop {rest : Text} (h : Follows rest) : ∀ b ∈ rest.head?, Text.isWord b = false := by
  rcases h with rfl | ⟨more, rfl⟩ | ⟨sign, _, more, rfl⟩ <;> rintro _ ⟨⟩ <;> decide

theorem Follows.endsNumber {rest : Text} (h : Follows rest) : EndsNumber rest := by
  rcases h with rfl | ⟨more, rfl⟩ | ⟨sign, _, more, rfl⟩ <;> rintro _ ⟨⟩ <;> decide

/-- The rest of no phrase follows. -/
theorem Follows.matchMore {rest : Text} (h : Follows rest) {phrase : Phrase} (hphrase : phrase ∈ Phrase.table) :
    ∃ ws, phrase.words = utf8 "is" :: ws ∧ Phrase.matchMore ws rest = none := by
  simp only [Phrase.table, List.mem_cons, List.not_mem_nil, or_false] at hphrase
  simp only [Follows, signs, List.mem_cons, List.not_mem_nil, or_false] at h
  rcases hphrase with rfl | rfl | rfl | rfl <;> refine ⟨_, rfl, ?_⟩ <;>
    rcases h with rfl | ⟨more, rfl⟩ | ⟨_, rfl | rfl | rfl | rfl | rfl | rfl, more, rfl⟩ <;> rfl

theorem Follows.no_phrase {rest : Text} (h : Follows rest) {c : UInt8} {more : Text} (hc : Text.isAlpha c = true)
    (hmore : ∀ b ∈ more, Text.isWord b = true) : Phrase.at? (c :: (more ++ rest)) = none := by
  refine List.findSome?_eq_none_iff.mpr fun phrase hphrase => ?_
  obtain ⟨ws, hwords, hnone⟩ := h.matchMore hphrase
  have hword : ∀ b ∈ c :: more, Text.isWord b = true := List.forall_mem_cons.mpr ⟨by simp [Text.isWord, hc], hmore⟩
  rw [hwords, Phrase.matchWords, ← List.cons_append, Phrase.matchWord, ReadBack.takeWhile_append_stop hword h.stop,
    ReadBack.dropWhile_append_stop hword h.stop]
  split
  · rw [Option.bind_some, hnone]
    rfl
  · rfl

section Parts

variable {rest : Text} {ts : List (Kind × Text)} (h : Reads rest ts)
include h

theorem Reads.cons_token {c : UInt8} {more lexeme : Text} {kind : Kind}
    (hpiece : piece c (more ++ rest) = .token kind lexeme more.length) :
    Reads (c :: (more ++ rest)) ((kind, lexeme) :: ts) :=
  .token hpiece (by rwa [List.drop_left])

theorem reads_name {t : Token} (ht : t.Is .identifier) (hrest : Follows rest) :
    Reads (t.lexeme ++ rest) ((.identifier, t.lexeme) :: ts) := by
  obtain ⟨⟨c, more, hlexeme, hc, hmore⟩, hkeyword⟩ := ht.2
  have hkind : Kind.ofWord t.lexeme = .identifier := by rw [Kind.ofWord, hkeyword]; rfl
  rw [hlexeme] at hkind ⊢
  refine h.cons_token ?_
  rw [piece_of_isWord _ (by simp [Text.isWord, hc]), if_neg (by simp [Text.isDigit_of_isAlpha hc]),
    wordPiece_word (hrest.no_phrase hc hmore), ReadBack.takeWhile_append_stop hmore hrest.stop, hkind]

theorem reads_string {value : Text} (hvalue : ∀ b ∈ value, isStringByte b = true) :
    Reads (Text.quote :: (value ++ [Text.quote] ++ rest)) ((.string, value) :: ts) := by
  refine h.cons_token ?_
  have htake : (value ++ Text.quote :: rest).takeWhile isStringByte = value :=
    ReadBack.takeWhile_append_stop hvalue (by rintro _ ⟨⟩; rfl)
  change stringPiece _ = _
  rw [List.append_assoc, List.singleton_append, stringPiece, htake, List.drop_left]
  simp

theorem reads_number {text : Text} (htext : text.IsNumeral) (hrest : Follows rest) :
    Reads (text ++ rest) ((.number, text) :: ts) := by
  obtain ⟨d, whole, fraction, rfl, _⟩ := id htext
  obtain ⟨hd, hpiece⟩ := numberPiece_numeral htext hrest.endsNumber
  refine h.cons_token ?_
  rw [piece_of_isWord _ (by simp [Text.isWord, hd]), if_pos hd, hpiece]

theorem reads_operator {form : Form} (hform : form ≠ .comparison) {op : Token} {kind : Kind} (hk : kind ∈ form.operators)
    (hop : op.Is kind) : Reads (Text.space :: (form.symbol op ++ Text.space :: rest)) ((op.kind, form.symbol op) :: ts) := by
  have hnext : Reads (Text.space :: rest) ts := .blank rfl h
  have hmem := symbol_mem_signs hform hk hop
  generalize form.symbol op = symbol at hmem
  simp only [signs, List.mem_cons, List.not_mem_nil, or_false, Prod.mk.injEq] at hmem
  refine .blank rfl ?_
  rcases hmem with ⟨rfl, hkind⟩ | ⟨rfl, hkind⟩ | ⟨rfl, hkind⟩ | ⟨rfl, hkind⟩ | ⟨rfl, hkind⟩ | ⟨rfl, hkind⟩ <;>
    (rw [hkind]; exact hnext.cons_token rfl)

end Parts

theorem follows_operator {form : Form} (hform : form ≠ .comparison) {op : Token} {kind : Kind} (hk : kind ∈ form.operators)
    (hop : op.Is kind) (more : Text) : Follows (Text.space :: (form.symbol op ++ Text.space :: more)) :=
  Or.inr (Or.inr ⟨_, symbol_mem_signs hform hk hop, more, rfl⟩)

/-- The text of an expression is read into the tokens of the expression. -/
theorem reads_python {e : Expr} (h : e.Sourced) (hplain : ∀ n ∈ e.walk, n.Plain) : ∀ {rest : Text} {ts : List (Kind × Text)},
    Follows rest → Reads rest ts → Reads (e.python ++ rest) (e.tokens ++ ts) := by
  induction e with
  | number t value =>
    intro rest ts hrest hreads
    obtain ⟨b, hread, hpos⟩ := Text.IsNumeral.reading h.1.2 h.2
    exact reads_number hreads ((hplain _ (List.mem_singleton_self _)).isNumeral hread hpos) hrest
  | string t value =>
    intro rest ts _ hreads
    obtain ⟨hstring, rfl⟩ := h
    exact reads_string hreads hstring.2
  | var t =>
    intro rest ts hrest hreads
    exact reads_name hreads h hrest
  | operation form left op right ihl ihr =>
    intro rest ts hrest hreads
    obtain ⟨hl, ⟨kind, hk, hop⟩, hr⟩ := h
    have hform : form ≠ .comparison := by
      rintro rfl
      exact hplain _ (List.mem_cons_self ..)
    have hclose : Reads (41 :: rest) ((.rparen, utf8 ")") :: ts) := .token rfl hreads
    have hright := ihr hr (fun n hn => hplain n (by simp [Expr.walk, hn])) (Or.inr (Or.inl ⟨rest, rfl⟩)) hclose
    have hleft := ihl hl (fun n hn => hplain n (by simp [Expr.walk, hn])) (follows_operator hform hk hop _)
      (reads_operator hright hform hk hop)
    have htext : (Expr.operation form left op right).python ++ rest =
        40 :: (left.python ++ Text.space :: (form.symbol op ++ Text.space :: (right.python ++ 41 :: rest))) := by
      simp only [Expr.python, List.append_assoc]
      rfl
    have htokens : (Expr.operation form left op right).tokens ++ ts = (.lparen, utf8 "(") ::
        (left.tokens ++ (op.kind, form.symbol op) :: (right.tokens ++ (.rparen, utf8 ")") :: ts)) := by
      simp [Expr.tokens]
    rw [htext, htokens]
    exact .token rfl hleft
  | hole => exact h.elim

end Lexer

theorem Expr.Sourced.tokens_endless {e : Expr} (h : e.Sourced) : ∀ t ∈ e.tokens, t.1 ≠ .eof := by
  induction e with
  | operation form left op right ihl ihr =>
    obtain ⟨hl, ⟨kind, hk, hop⟩, hr⟩ := h
    have hkind : op.kind ≠ .eof := by
      rw [hop.1]
      rintro rfl
      cases form <;> simp [Form.operators] at hk
    intro t ht
    simp only [Expr.tokens, List.mem_cons, List.mem_append, List.not_mem_nil, or_false] at ht
    rcases ht with rfl | ht | rfl | ht | rfl
    · decide
    · exact ihl hl t ht
    · exact hkind
    · exact ihr hr t ht
    · decide
  | _ => simp [Expr.tokens]

theorem Grammar.Rank.exists_of_operator {form : Form} {kind : Kind} (hk : kind ∈ form.operators) :
    ∃ rank : Rank, kind ∈ rank.operators ∧ rank.form = form := by
  cases form <;> simp only [Form.operators, List.mem_cons, List.not_mem_nil, or_false] at hk
  · rcases hk with rfl | rfl | rfl | rfl
    · exact ⟨.addition, by decide, rfl⟩
    · exact ⟨.addition, by decide, rfl⟩
    · exact ⟨.multiplication, by decide, rfl⟩
    · exact ⟨.multiplication, by decide, rfl⟩
  · exact ⟨.comparison, by simpa [Rank.operators] using hk, rfl⟩
  · exact ⟨.logical, by simpa [Rank.operators] using hk, rfl⟩

theorem Token.bare_operator {form : Form} {op op' : Token} (h : op'.unplaced = (op.kind, form.symbol op)) :
    op'.bare (form.symbol op') = op.bare (form.symbol op) := by
  obtain ⟨kind, lexeme, pos⟩ := op'
  obtain ⟨rfl, rfl⟩ := Prod.mk.inj h
  have hplace : form.symbol ⟨op.kind, form.symbol op, pos⟩ = form.symbol (op.bare (form.symbol op)) := by cases form <;> rfl
  rw [hplace, Form.symbol_bare]
  rfl

/-- The tokens of the text of an expression derive the expression, up to its normal form. -/
theorem Expr.Sourced.derived {e : Expr} (h : e.Sourced) : ∀ {body : List Token}, body.map Token.unplaced = e.tokens →
    ∃ e', Grammar.Expression .primary body e' ∧ e'.bare = e.bare := by
  induction e with
  | number t value =>
    intro body hbody
    obtain ⟨x, rfl, hx⟩ := List.map_eq_singleton_iff.mp hbody
    obtain ⟨hkind, hlexeme⟩ := Prod.mk.inj hx
    obtain ⟨b, hread, hpos⟩ := Text.IsNumeral.reading h.1.2 h.2
    refine ⟨_, .number hkind (hlexeme ▸ readFloat_pythonFloat hread hpos), ?_⟩
    rw [Expr.bare, Expr.bare, Token.bare, Token.bare, hkind, h.1.1]
  | string t value =>
    intro body hbody
    obtain ⟨x, rfl, hx⟩ := List.map_eq_singleton_iff.mp hbody
    obtain ⟨hkind, hlexeme⟩ := Prod.mk.inj hx
    refine ⟨_, .string hkind, ?_⟩
    rw [Expr.bare, Expr.bare, Token.bare, Token.bare, hkind, h.1.1, hlexeme]
  | var t =>
    intro body hbody
    obtain ⟨x, rfl, hx⟩ := List.map_eq_singleton_iff.mp hbody
    obtain ⟨hkind, hlexeme⟩ := Prod.mk.inj hx
    refine ⟨_, .var hkind, ?_⟩
    rw [Expr.bare, Expr.bare, Token.bare, Token.bare, hkind, h.1, hlexeme]
  | operation form left op right ihl ihr =>
    intro body hbody
    obtain ⟨hl, ⟨kind, hk, hop⟩, hr⟩ := h
    obtain ⟨l, inner, rfl, hopen, hinner⟩ := List.map_eq_cons_iff.mp hbody
    obtain ⟨ls, behind, rfl, hls, hbehind⟩ := List.map_eq_append_iff.mp hinner
    obtain ⟨op', last, rfl, hop', hlast⟩ := List.map_eq_cons_iff.mp hbehind
    obtain ⟨rs, closing, rfl, hrs, hclosing⟩ := List.map_eq_append_iff.mp hlast
    obtain ⟨r, rfl, hclose⟩ := List.map_eq_singleton_iff.mp hclosing
    obtain ⟨left', hleft, hleft'⟩ := ihl hl hls
    obtain ⟨right', hright, hright'⟩ := ihr hr hrs
    have hkind : op'.kind = op.kind := (Prod.mk.inj hop').1
    obtain ⟨rank, hrank, rfl⟩ := Grammar.Rank.exists_of_operator hk
    -- both operands stand in parentheses or are single tokens, so they fit any rank
    have hoperation := Grammar.Expression.operation (hleft.loosen rank.depth_le_four) (hkind.trans hop.1 ▸ hrank)
      (hright.loosen rank.operand.depth_le_four)
    refine ⟨.operation rank.form left' op' right', ?_, ?_⟩
    · have hgroup := Grammar.Expression.group (Prod.mk.inj hopen).1 (hoperation.loosen (Nat.zero_le _))
        (Prod.mk.inj hclose).1
      simpa using hgroup
    · rw [Expr.bare, Expr.bare, hleft', hright', Token.bare_operator hop']
  | hole => exact h.elim

/-- An expression that was read from a source, has no comparison and whose numbers are written without an exponent is
read again from its text, up to the places of its tokens and the spelling of its numbers and operators. So its text is
the same. -/
theorem python_reread {source : Text} {tokens : List Token} (hlex : lex source = .ok tokens) {e : Expr}
    (hparse : parseExpr tokens = .ok e) (hplain : ∀ n ∈ e.walk, n.Plain) :
    ∃ again e', lex e.python = .ok again ∧ parseExpr again = .ok e' ∧ e'.bare = e.bare ∧ e'.python = e.python := by
  have hsourced : e.Sourced := by
    obtain ⟨us, ns, hbody, hexpr, _⟩ := parseExpr_derived hparse
    have hmem : ∀ t ∈ us, t ∈ bodyTokens tokens := fun t ht => hbody ▸ List.mem_append_left ns ht
    exact hexpr.sourced fun t ht => lex_spelled hlex t ((List.takeWhile_sublist _).mem (hmem t ht))
  have hreads := Lexer.reads_python hsourced hplain (Or.inl rfl) Lexer.Reads.nil
  rw [List.append_nil, List.append_nil] at hreads
  obtain ⟨body, q, hagain, hbody⟩ := hreads.tokensFrom .start
  obtain ⟨e', hderived, hbare⟩ := hsourced.derived hbody
  have hendless : Endless body := fun t ht =>
    hsourced.tokens_endless t.unplaced (hbody ▸ List.mem_map_of_mem ht)
  refine ⟨body ++ [Token.endAt q], e', hagain, Grammar.Whole.parsed ?_, hbare, ?_⟩
  · rw [bodyTokens_endless hendless rfl]
    exact ⟨body, [], by simp, hderived.loosen (Nat.zero_le _), by simp⟩
  · rw [← e'.python_bare, hbare, e.python_bare]

/-- A variable that is named like the first word of a comparison. -/
theorem python_reread_is :
    ∃ tokens e, lex (utf8 "is OR 2.50 * \"x\"") = .ok tokens ∧ parseExpr tokens = .ok e ∧ (∀ n ∈ e.walk, n.Plain) ∧
      e.python = utf8 "(is or (2.5 * \"x\"))" ∧
      ∃ again e', lex e.python = .ok again ∧ parseExpr again = .ok e' ∧ e'.bare = e.bare ∧ e'.python = e.python := by
  let tokens : List Token := [⟨.identifier, utf8 "is", ⟨1, 1⟩⟩, ⟨.or, utf8 "OR", ⟨1, 4⟩⟩, ⟨.number, utf8 "2.50", ⟨1, 7⟩⟩,
    ⟨.multiply, utf8 "*", ⟨1, 12⟩⟩, ⟨.string, utf8 "x", ⟨1, 14⟩⟩, ⟨.eof, [], ⟨1, 17⟩⟩]
  let e : Expr := .operation .logic (.var ⟨.identifier, utf8 "is", ⟨1, 1⟩⟩) ⟨.or, utf8 "OR", ⟨1, 4⟩⟩
    (.operation .arithmetic (.number ⟨.number, utf8 "2.50", ⟨1, 7⟩⟩ 2.5) ⟨.multiply, utf8 "*", ⟨1, 12⟩⟩
      (.string ⟨.string, utf8 "x", ⟨1, 14⟩⟩ (utf8 "x")))
  have hlex : lex (utf8 "is OR 2.50 * \"x\"") = .ok tokens := by decide +kernel
  have hparse : parseExpr tokens = .ok e := by decide +kernel
  have hplain : ∀ n ∈ e.walk, n.Plain := by
    have hnumber : (1e-4 : Float) ≤ 2.5 ∧ (2.5 : Float) < 1e16 := by decide +kernel
    simp only [e, Expr.walk, List.mem_cons, List.mem_append, List.not_mem_nil, or_false]
    rintro n (rfl | rfl | rfl | rfl | rfl)
    · trivial
    · trivial
    · trivial
    · exact Or.inr hnumber
    · trivial
  exact ⟨tokens, e, hlex, hparse, hplain, by decide +kernel, python_reread hlex hparse hplain⟩

end EnglishScript
