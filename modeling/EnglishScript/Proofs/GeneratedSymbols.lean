import EnglishScript.Proofs.InlineReading
import EnglishScript.Proofs.LiteralQuote
import EnglishScript.Proofs.RoundTrip

namespace EnglishScript

namespace Python

/-- Whether a symbol stands inside a line and ends no statement and no head. -/
def Lexis.isPlain (l : Lexis) : Bool :=
  l.isInline && l != mark ";" && l != mark ":"

namespace Scan

/-- The bytes that can stand behind a part of a generated line. -/
def stopBytes : List UInt8 := [Text.space, 40, 41, 58]

/-- A part of a generated line can end before the text. -/
def Stops (rest : Text) : Prop :=
  ∀ b ∈ rest.head?, b ∈ stopBytes

theorem Stops.cases {b : UInt8} {rest : Text} (h : Stops (b :: rest)) : b = Text.space ∨ b = 40 ∨ b = 41 ∨ b = 58 := by
  simpa [stopBytes] using h b rfl

theorem Stops.head {rest : Text} (h : Stops rest) {p : UInt8 → Prop} (hp : p Text.space ∧ p 40 ∧ p 41 ∧ p 58) :
    ∀ b ∈ rest.head?, p b := by
  obtain ⟨hspace, hopen, hclose, hcolon⟩ := hp
  cases rest with
  | nil => rintro _ ⟨⟩
  | cons b rest =>
    rintro _ ⟨⟩
    rcases h.cases with rfl | rfl | rfl | rfl
    · exact hspace
    · exact hopen
    · exact hclose
    · exact hcolon

/-- A line with symbols in front of it. -/
def Line.after (front : List Symbol) (line : Line) : Line :=
  { line with symbols := front ++ line.symbols }

theorem restOfLine_skip (t : Text) (here : Spot) (depth : Int) (rest : Text) :
    restOfLine t.length here depth (t ++ rest) =
      restOfLine 0 { here with offset := here.offset + t.length } depth rest := by
  induction t generalizing here with
  | nil => rfl
  | cons b t ih =>
    rw [List.length_cons, List.cons_append, restOfLine, ih]
    congr 2
    simp only
    omega

/-- A symbol at the start of a line is followed by the symbols of the rest of the line. -/
theorem restOfLine_symbol {c : UInt8} {t rest : Text} {lexis : Lexis} (here : Spot) (depth : Int)
    (hpiece : piece c (t ++ rest) = .symbol lexis (t.length + 1)) (hplain : lexis.isInline = true) :
    ∃ s there, s.lexis = lexis ∧ restOfLine 0 here depth (c :: (t ++ rest)) =
      (restOfLine 0 there (depth + bracketChange lexis) rest).after [s] := by
  refine ⟨⟨lexis, { here with offset := here.offset + (t.length + 1) }⟩,
    { here with offset := here.offset + 1 + t.length }, rfl, ?_⟩
  rw [restOfLine.eq_def]
  simp only [hpiece]
  have hskip := restOfLine_skip t { here with offset := here.offset + 1 } (depth + bracketChange lexis) rest
  split
  next => cases hplain
  next =>
    simp only [Nat.add_sub_cancel, hskip]
    rfl

theorem numberWidth_other {c : UInt8} (s : Text) (hdigit : Text.isDigit c = false) (hpoint : c ≠ 46) :
    numberWidth (c :: s) = 0 := by
  have hbased : based? (c :: s) = none := by
    unfold based?
    split
    next heq =>
      cases (List.cons.inj heq).1
      cases hdigit
    next => rfl
  have hpart : pointPart (c :: s) = [] := by
    unfold pointPart
    split
    next heq => exact absurd (List.cons.inj heq).1 hpoint
    next => rfl
  simp [numberWidth, hbased, hdigit, hpart]

theorem basedDigits_none {rest : Text} (h : ∀ b ∈ rest.head?, Text.lowerByte b ≠ 120 ∧ Text.lowerByte b ≠ 111 ∧
    Text.lowerByte b ≠ 98) : basedDigits rest = none := by
  cases rest with
  | nil => rfl
  | cons b rest =>
    obtain ⟨hx, ho, hb⟩ := h b rfl
    unfold basedDigits
    simp only [List.isEmpty_iff]
    split
    next => rfl
    next h => exact absurd trivial h

theorem head_append {t u : Text} {p : UInt8 → Prop} (ht : ∀ b ∈ t.head?, p b) (hu : ∀ b ∈ u.head?, p b) :
    ∀ b ∈ (t ++ u).head?, p b := by
  cases t with
  | nil => exact hu
  | cons b t => exact ht

theorem exponentPart_power {power rest : Text} (hpower : Numeral.IsPower power) (hrest : Stops rest) :
    exponentPart (power ++ rest) = power := by
  rcases hpower with rfl | ⟨sign, ds, rfl, hsign, hne, hds⟩
  · cases rest with
    | nil => rfl
    | cons b rest => rcases hrest.cases with rfl | rfl | rfl | rfl <;> rfl
  · have htake : (ds ++ rest).takeWhile Text.isDigit = ds :=
      ReadBack.takeWhile_append_stop hds (hrest.head (by decide))
    have hempty : ds.isEmpty = false := by simpa using hne
    rcases hsign with rfl | rfl <;> simp [exponentPart, Text.lowerByte, htake, hempty]

theorem isDigit_power {power rest : Text} (hpower : Numeral.IsPower power) (hrest : Stops rest) :
    ∀ b ∈ (power ++ rest).head?, Text.isDigit b = false := by
  refine head_append ?_ (hrest.head (by decide))
  rcases hpower with rfl | ⟨sign, ds, rfl, _⟩
  · rintro _ ⟨⟩
  · rintro _ ⟨⟩
    decide

theorem isDigit_fraction {fraction rest : Text} (hfraction : Numeral.IsFraction fraction)
    (hrest : ∀ b ∈ rest.head?, Text.isDigit b = false) : ∀ b ∈ (fraction ++ rest).head?, Text.isDigit b = false := by
  refine head_append ?_ hrest
  rcases hfraction with rfl | ⟨ds, rfl, _⟩
  · rintro _ ⟨⟩
  · rintro _ ⟨⟩
    decide

theorem based_none {t rest : Text} (ht : ∀ b ∈ t, Text.isNumeric b = true) (hrest : Stops rest) :
    based? (t ++ rest) = none := by
  unfold based?
  split
  next more hmore =>
    refine basedDigits_none ?_
    cases t with
    | nil =>
      rw [List.nil_append] at hmore
      exact absurd (hrest 48 (by rw [hmore]; rfl)) (by decide)
    | cons b t =>
      cases (List.cons.inj hmore).2
      refine head_append (fun c hc => Text.lowerByte_numeric (ht c (by simp [List.mem_of_mem_head? hc])))
        (hrest.head (by decide))
  next => rfl

theorem pointPart_fraction {fraction rest : Text} (hfraction : Numeral.IsFraction fraction)
    (hdigit : ∀ b ∈ rest.head?, Text.isDigit b = false) (hpoint : ∀ b ∈ rest.head?, b ≠ 46) :
    pointPart (fraction ++ rest) = fraction := by
  rcases hfraction with rfl | ⟨ds, rfl, _, hds⟩
  · unfold pointPart
    split
    next heq =>
      rw [List.nil_append] at heq
      exact absurd rfl (hpoint 46 (by rw [heq]; rfl))
    next => rfl
  · rw [List.cons_append, pointPart, ReadBack.takeWhile_append_stop hds hdigit]

theorem Stops.startsUnit {rest : Text} (h : Stops rest) : startsUnit rest = false := by
  cases rest with
  | nil => rfl
  | cons b rest => rcases h.cases with rfl | rfl | rfl | rfl <;> rfl

/-- A number that is followed by no more of it is scanned as a whole. -/
theorem numberWidth_text {t rest : Text} (ht : Numeral.IsText t) (hrest : Stops rest) :
    numberWidth (t ++ rest) = t.length := by
  have hbased := based_none ht.numeric hrest
  obtain ⟨whole, fraction, power, rfl, hne, hwhole, hfraction, hpower, _⟩ := ht
  have hdigit := isDigit_power hpower hrest
  have hpoint : ∀ b ∈ (power ++ rest).head?, b ≠ 46 := by
    refine head_append ?_ (hrest.head (by decide))
    rcases hpower with rfl | ⟨sign, ds, rfl, _⟩ <;> rintro _ ⟨⟩
    decide
  have hempty : whole.isEmpty = false := by simpa using hne
  have htake : (whole ++ fraction ++ power ++ rest).takeWhile Text.isDigit = whole := by
    rw [List.append_assoc, List.append_assoc]
    exact ReadBack.takeWhile_append_stop hwhole (isDigit_fraction hfraction hdigit)
  have hbehind : (whole ++ fraction ++ power ++ rest).drop whole.length = fraction ++ (power ++ rest) := by
    rw [List.append_assoc, List.append_assoc, List.drop_left]
  have hpower' : (whole ++ fraction ++ power ++ rest).drop (whole ++ fraction).length = power ++ rest := by
    rw [List.append_assoc, List.drop_left]
  have hrest' : (whole ++ fraction ++ power ++ rest).drop ((whole ++ fraction).length + power.length) = rest := by
    rw [← List.length_append, List.drop_left]
  simp only [numberWidth, hbased, htake, hbehind, pointPart_fraction hfraction hdigit hpoint, hempty, Bool.false_and,
    Bool.false_eq_true, ↓reduceIte, hpower', exponentPart_power hpower hrest, hrest', hrest.startsUnit]
  rw [if_neg (by simp [hne]), ← List.length_append]

/-- The letters before the opening quote of a literal are letters of the text. -/
theorem opening_eq {s : Text} {m : Manner} {n : Nat} (h : opening? s = some (m, n)) :
    ∃ letters q rest, s = letters ++ q :: rest ∧ (∀ b ∈ letters, Text.isAlpha b = true) ∧ (q = Text.quote ∨ q = 39) := by
  obtain ⟨⟨letters, raw, bytes⟩, hmem, h⟩ := List.exists_of_findSome?_eq_some h
  simp only at h
  split at h
  next q rest hdrop =>
    split at h
    next hsame =>
      simp only [Text.sameLetters, Bool.and_eq_true, Bool.or_eq_true, beq_iff_eq] at hsame
      refine ⟨s.take letters.length, q, rest, by rw [← hdrop, List.take_append_drop], fun b hb => ?_, hsame.2⟩
      have hlower : Text.lowerByte b ∈ Text.lower letters := hsame.1 ▸ List.mem_map_of_mem hb
      have halpha : (manners.all fun x => (Text.lower x.1).all Text.isAlpha) = true := by decide
      exact Text.isAlpha_of_lowerByte (List.all_eq_true.mp (List.all_eq_true.mp halpha _ hmem) _ hlower)
    next => cases h
  next => cases h

theorem opening_word {t rest : Text} (ht : ∀ b ∈ t, Text.isWord b = true) (hrest : Stops rest) :
    opening? (t ++ rest) = none := by
  cases h : opening? (t ++ rest) with
  | none => rfl
  | some found =>
    obtain ⟨letters, q, more, hsplit, hletters, hq⟩ := opening_eq h
    have hword : Text.isWord q = false := by rcases hq with rfl | rfl <;> decide
    have hstop : q ∉ stopBytes := by rcases hq with rfl | rfl <;> decide
    rcases List.append_eq_append_iff.mp hsplit with ⟨inner, rfl, hinner⟩ | ⟨inner, rfl, hinner⟩
    · cases inner with
      | nil => exact absurd (hrest q (by rw [hinner]; rfl)) hstop
      | cons b inner =>
        have hstops : ∀ b ∈ rest.head?, Text.isAlpha b = false := hrest.head (by decide)
        exact absurd (hletters b (by simp)) (by simp [hstops b (by rw [hinner]; rfl)])
    · cases inner with
      | nil => exact absurd (hrest q (by rw [List.nil_append] at hinner; rw [← hinner]; rfl)) hstop
      | cons b inner =>
        cases (List.cons.inj hinner).1
        exact absurd (ht q (by simp)) (by simp [hword])

theorem opening_sign {c : UInt8} (rest : Text) (halpha : Text.isAlpha c = false) (hquote : c ≠ Text.quote) (hsingle : c ≠ 39) :
    opening? (c :: rest) = none := by
  cases h : opening? (c :: rest) with
  | none => rfl
  | some found =>
    obtain ⟨letters, q, more, hsplit, hletters, hq⟩ := opening_eq h
    cases letters with
    | nil =>
      cases (List.cons.inj hsplit).1
      exact absurd hq (by simp [hquote, hsingle])
    | cons b letters =>
      cases (List.cons.inj hsplit).1
      exact absurd (hletters c (by simp)) (by simp [halpha])

/-- The symbol of a word. -/
def wordLexis (t : Text) : Lexis :=
  if keywords.contains t then .keyword t else .name t

theorem piece_word {c : UInt8} {t rest : Text} (hc : Text.isAlpha c = true) (ht : ∀ b ∈ t, Text.isWord b = true)
    (hrest : Stops rest) : piece c (t ++ rest) = .symbol (wordLexis (c :: t)) (t.length + 1) := by
  have hspace : (c = Text.space || c = Text.tab) = false := by
    simp only [Bool.or_eq_false_iff, decide_eq_false_iff_not]
    constructor <;> (rintro rfl; exact absurd hc (by decide))
  have hcomment : c ≠ 35 := by rintro rfl; exact absurd hc (by decide)
  have hpoint : c ≠ 46 := by rintro rfl; exact absurd hc (by decide)
  have hwords : ∀ b ∈ c :: t, Text.isWord b = true := List.forall_mem_cons.mpr ⟨by simp [Text.isWord, hc], ht⟩
  have hwidth := numberWidth_other (t ++ rest) (Text.isDigit_of_isAlpha hc) hpoint
  have hopen := opening_word hwords hrest
  have hinName : ∀ b ∈ c :: t, inName b = true := by
    intro b hb
    have := hwords b hb
    simp only [Text.isWord, Bool.or_eq_true] at this
    rcases this with h | h <;> simp [inName, startsName, h]
  have htake : (c :: t ++ rest).takeWhile inName = c :: t :=
    ReadBack.takeWhile_append_stop hinName (hrest.head (by decide))
  rw [List.cons_append] at hopen htake
  simp [piece, hspace, hcomment, hwidth, hopen, startsName, hc, htake, wordLexis]

/-- Whether a byte starts nothing but a sign. -/
def startsSign (c : UInt8) : Bool :=
  !(c == Text.space || c == Text.tab || c == 35 || Text.isDigit c || c == 46 || startsName c || c == Text.quote || c == 39)

theorem piece_sign {c : UInt8} {t : Text} (rest : Text) (hc : startsSign c = true)
    (hfind : signs.find? (fun t => t.isPrefixOf (c :: rest)) = some t) : piece c rest = .symbol (.sign t) t.length := by
  simp only [startsSign, Bool.not_eq_true', Bool.or_eq_false_iff, beq_eq_false_iff_ne, ne_eq] at hc
  obtain ⟨⟨⟨⟨⟨⟨⟨hspace, htab⟩, hcomment⟩, hdigit⟩, hpoint⟩, hstart⟩, hquote⟩, hsingle⟩ := hc
  have halpha : Text.isAlpha c = false := by
    simp only [startsName, Bool.or_eq_false_iff] at hstart
    exact hstart.1
  have hwidth := numberWidth_other rest hdigit hpoint
  have hopen := opening_sign rest halpha hquote hsingle
  simp [piece, hspace, htab, hcomment, hwidth, hopen, hstart, hfind]

theorem Numeral.IsText.not_digits {t : Text} (ht : Numeral.IsText t) : t.all Text.isDigit = false := by
  obtain ⟨whole, fraction, power, rfl, _, _, hfraction, hpower, hsome⟩ := ht
  rw [List.all_append, List.all_append, Bool.and_eq_false_iff, Bool.and_eq_false_iff]
  rcases hsome with hne | hne
  · rcases hfraction with rfl | ⟨ds, rfl, _⟩
    · exact absurd rfl hne
    · exact Or.inl (Or.inr rfl)
  · rcases hpower with rfl | ⟨sign, ds, rfl, _⟩
    · exact absurd rfl hne
    · exact Or.inr rfl

theorem piece_number {c : UInt8} {t rest : Text} (hc : Text.isDigit c = true) (ht : Numeral.IsText (c :: t))
    (hrest : Stops rest) : piece c (t ++ rest) = .symbol .number (t.length + 1) := by
  have hspace : (c = Text.space || c = Text.tab) = false := by
    simp only [Bool.or_eq_false_iff, decide_eq_false_iff_not]
    constructor <;> (rintro rfl; exact absurd hc (by decide))
  have hcomment : c ≠ 35 := by rintro rfl; exact absurd hc (by decide)
  have hwidth := numberWidth_text ht hrest
  have hzero : hasLeadingZero (c :: t ++ rest) = false := by
    simp only [hasLeadingZero, hwidth, List.take_left, Numeral.IsText.not_digits ht, Bool.false_and]
  rw [List.cons_append] at hwidth hzero
  simp [piece, hspace, hcomment, hwidth, hzero]

theorem opening_quote (rest : Text) : opening? (Text.quote :: rest) = some (⟨Text.quote, false, false⟩, 0) := by
  cases rest with
  | nil => rfl
  | cons b rest => cases rest <;> rfl

theorem piece_literal {value rest : Text} (hquote : Text.quote ∉ value) (hend : Literal.escapesEnd value = false)
    (hrest : Stops rest) : piece Text.quote (value ++ [Text.quote] ++ rest) =
      .symbol (literal ⟨Text.quote, false, false⟩ value) ((value ++ [Text.quote]).length + 1) := by
  have hwidth := numberWidth_other (value ++ [Text.quote] ++ rest) (c := Text.quote) (by decide) (by decide)
  have hopen := opening_quote (value ++ [Text.quote] ++ rest)
  have hclose := closing_own_quote hquote (trailing_even hend) rest
  have hlong : [Text.quote, Text.quote, Text.quote].isPrefixOf
      (Text.quote :: (value ++ [Text.quote] ++ rest)) = false := by
    cases value with
    | nil =>
      cases rest with
      | nil => rfl
      | cons b rest => rcases hrest.cases with rfl | rfl | rfl | rfl <;> rfl
    | cons b value =>
      have hb : Text.quote ≠ b := fun h => hquote (by simp [h])
      simp [List.isPrefixOf, hb]
  rw [List.append_assoc, List.singleton_append] at *
  simp only [piece, hwidth, hopen, literalPiece, hlong, List.drop_succ_cons, List.drop_zero, hclose, List.take_left,
    List.length_append, List.length_singleton]
  simp [Text.quote, Text.space, Text.tab]
  omega

theorem literal_cases (value : Text) : literal ⟨Text.quote, false, false⟩ value = .string ∨
    ∃ reason, literal ⟨Text.quote, false, false⟩ value = .flaw reason := by
  unfold literal
  simp only [Bool.false_and, Bool.false_eq_true, ↓reduceIte]
  split
  · exact Or.inl rfl
  · exact Or.inr ⟨_, rfl⟩

/-- The part of a line in front of `rest` has symbols of its own, behind which `change` more brackets are open. -/
def Passes (good : List Symbol → Prop) (t rest : Text) (change : Int) : Prop :=
  ∀ here depth, ∃ front there, good front ∧
    restOfLine 0 here depth (t ++ rest) = (restOfLine 0 there (depth + change) rest).after front

/-- A plain symbol list: nothing in it ends a line, a statement or a head. -/
def Plain (front : List Symbol) : Prop :=
  ∀ s ∈ front, s.lexis.isPlain = true

/-- The line breaks off at a flaw behind plain symbols. -/
def Breaks (line : Line) : Prop :=
  ∃ front flaw, Plain front ∧ (∃ reason, flaw.lexis = .flaw reason) ∧ line.symbols = front ++ [flaw] ∧
    line.ending = .broken

/-- The part of a line in front of `rest` has plain symbols, behind which `change` more brackets are open, or the line
breaks off in it. -/
def Scans (t rest : Text) (change : Int) : Prop :=
  ∀ here depth, (∃ front there, Plain front ∧
    restOfLine 0 here depth (t ++ rest) = (restOfLine 0 there (depth + change) rest).after front) ∨
    Breaks (restOfLine 0 here depth (t ++ rest))

theorem Passes.scans {t rest : Text} {change : Int} (h : Passes Plain t rest change) : Scans t rest change := by
  intro here depth
  obtain ⟨front, there, hfront, heq⟩ := h here depth
  exact Or.inl ⟨front, there, hfront, heq⟩

theorem Plain.append {front back : List Symbol} (hfront : Plain front) (hback : Plain back) : Plain (front ++ back) :=
  List.forall_mem_append.mpr ⟨hfront, hback⟩

theorem Line.after_after (front back : List Symbol) (line : Line) :
    (line.after back).after front = line.after (front ++ back) := by
  simp [Line.after]

theorem Breaks.after {front : List Symbol} (hfront : Plain front) {line : Line} (h : Breaks line) :
    Breaks (line.after front) := by
  obtain ⟨back, flaw, hback, hflaw, hsymbols, hending⟩ := h
  exact ⟨front ++ back, flaw, hfront.append hback, hflaw, by simp [Line.after, hsymbols], hending⟩

theorem Scans.append {t u rest : Text} {a b : Int} (ht : Scans t (u ++ rest) a) (hu : Scans u rest b) :
    Scans (t ++ u) rest (a + b) := by
  intro here depth
  rw [List.append_assoc]
  rcases ht here depth with ⟨front, there, hfront, heq⟩ | hbreaks
  · rw [heq]
    rcases hu there (depth + a) with ⟨back, after, hback, heq'⟩ | hbreaks
    · refine Or.inl ⟨front ++ back, after, hfront.append hback, ?_⟩
      rw [heq', Line.after_after, Int.add_assoc]
    · exact Or.inr (hbreaks.after hfront)
  · exact Or.inr hbreaks

theorem passes_space (rest : Text) : Passes (· = []) (utf8 " ") rest 0 := by
  intro here depth
  refine ⟨[], { here with offset := here.offset + 1 }, rfl, ?_⟩
  rw [Int.add_zero]
  rfl

/-- A part of a line that is one symbol. -/
theorem passes_symbol {c : UInt8} {t rest : Text} {lexis : Lexis}
    (hpiece : piece c (t ++ rest) = .symbol lexis (t.length + 1)) (hin : lexis.isInline = true) :
    Passes (fun front => ∃ s, front = [s] ∧ s.lexis = lexis) (c :: t) rest (bracketChange lexis) := by
  intro here depth
  obtain ⟨s, there, hs, heq⟩ := restOfLine_symbol here depth hpiece hin
  exact ⟨[s], there, ⟨s, rfl, hs⟩, heq⟩

theorem Passes.imp {good better : List Symbol → Prop} {t rest : Text} {change : Int} (h : Passes good t rest change)
    (himp : ∀ front, good front → better front) : Passes better t rest change := by
  intro here depth
  obtain ⟨front, there, hfront, heq⟩ := h here depth
  exact ⟨front, there, himp front hfront, heq⟩

theorem plain_singleton {lexis : Lexis} (h : lexis.isPlain = true) :
    ∀ front, (∃ s, front = [s] ∧ s.lexis = lexis) → Plain front := by
  rintro _ ⟨s, rfl, rfl⟩ t ht
  rw [List.mem_singleton.mp ht]
  exact h

theorem isPlain_wordLexis (t : Text) : (wordLexis t).isPlain = true := by
  unfold wordLexis
  split <;> simp [Lexis.isPlain, Lexis.isInline]

theorem bracketChange_wordLexis (t : Text) : bracketChange (wordLexis t) = 0 := by
  unfold wordLexis
  split <;> rfl

theorem isInline_of_isPlain {l : Lexis} (h : l.isPlain = true) : l.isInline = true := by
  simp only [Lexis.isPlain, Bool.and_eq_true] at h
  exact h.1.1

/-- A word is one symbol. -/
theorem passes_word {t rest : Text} (ht : t.IsName) (hrest : Stops rest) :
    Passes (fun front => ∃ s, front = [s] ∧ s.lexis = wordLexis t) t rest 0 := by
  obtain ⟨c, more, rfl, hc, hmore⟩ := ht
  have hpasses := passes_symbol (piece_word hc hmore hrest) (isInline_of_isPlain (isPlain_wordLexis (c :: more)))
  rwa [bracketChange_wordLexis] at hpasses

theorem scans_word {t rest : Text} (ht : t.IsName) (hrest : Stops rest) : Scans t rest 0 :=
  ((passes_word ht hrest).imp (plain_singleton (isPlain_wordLexis t))).scans

theorem scans_number {t rest : Text} (ht : Numeral.IsText t) (hrest : Stops rest) : Scans t rest 0 := by
  obtain ⟨d, more, rfl, hd⟩ := ht.first
  exact ((passes_symbol (piece_number hd ht hrest) rfl).imp (plain_singleton (by decide))).scans

theorem scans_literal {value rest : Text} (hquote : Text.quote ∉ value) (hend : Literal.escapesEnd value = false)
    (hrest : Stops rest) : Scans ([Text.quote] ++ value ++ [Text.quote]) rest 0 := by
  have hpiece := piece_literal hquote hend hrest
  rw [List.append_assoc, List.singleton_append]
  rcases literal_cases value with hstring | ⟨reason, hflaw⟩
  · rw [hstring] at hpiece
    exact ((passes_symbol hpiece rfl).imp (plain_singleton (by decide))).scans
  · rw [hflaw] at hpiece
    intro here depth
    have hline : restOfLine 0 here depth (Text.quote :: (value ++ [Text.quote]) ++ rest) =
        ⟨[⟨.flaw reason, { here with offset := here.offset + ((value ++ [Text.quote]).length + 1) }⟩], depth, .broken⟩ := by
      rw [List.cons_append, restOfLine.eq_def]
      simp only [hpiece]
    exact Or.inr ⟨[], _, by simp [Plain], ⟨reason, rfl⟩, congrArg Line.symbols hline, congrArg Line.ending hline⟩

theorem stops_space (rest : Text) : Stops (utf8 " " ++ rest) := by
  rintro _ ⟨⟩
  decide

theorem stops_open (rest : Text) : Stops (utf8 "(" ++ rest) := by
  rintro _ ⟨⟩
  decide

theorem stops_close (rest : Text) : Stops (utf8 ")" ++ rest) := by
  rintro _ ⟨⟩
  decide

theorem stops_colon (rest : Text) : Stops (utf8 ":" ++ rest) := by
  rintro _ ⟨⟩
  decide

theorem stops_nil : Stops [] := by
  rintro _ ⟨⟩

theorem passes_sign {c : UInt8} {t rest : Text} (hc : startsSign c = true)
    (hfind : signs.find? (fun s => s.isPrefixOf (c :: (t ++ rest))) = some (c :: t)) :
    Passes (fun front => ∃ s, front = [s] ∧ s.lexis = .sign (c :: t)) (c :: t) rest (bracketChange (.sign (c :: t))) :=
  passes_symbol (piece_sign (t ++ rest) hc hfind) rfl

theorem passes_open (rest : Text) : Passes (fun front => ∃ s, front = [s] ∧ s.lexis = mark "(") (utf8 "(") rest 1 :=
  passes_sign (c := 40) (t := []) rfl rfl

theorem passes_close (rest : Text) :
    Passes (fun front => ∃ s, front = [s] ∧ s.lexis = mark ")") (utf8 ")") rest (-1) :=
  passes_sign (c := 41) (t := []) rfl rfl

theorem passes_colon (rest : Text) : Passes (fun front => ∃ s, front = [s] ∧ s.lexis = mark ":") (utf8 ":") rest 0 :=
  passes_sign (c := 58) (t := []) rfl rfl

theorem passes_equals (rest : Text) :
    Passes (fun front => ∃ s, front = [s] ∧ s.lexis = mark "=") (utf8 "=") (utf8 " " ++ rest) 0 :=
  passes_sign (c := 61) (t := []) rfl rfl

/-- An operator in front of a space is one symbol. -/
theorem scans_operator {form : Form} {op : Token} {kind : Kind} (hk : kind ∈ form.operators) (hop : op.Is kind)
    (rest : Text) : Scans (form.symbol op) (utf8 " " ++ rest) 0 := by
  have hmem := ReadBack.symbol_mem_operators hk hop
  generalize form.symbol op = t at hmem
  simp only [ReadBack.operators, List.mem_cons, List.not_mem_nil, or_false, Prod.mk.injEq] at hmem
  have sign {c : UInt8} {t : Text} (hc : startsSign c = true)
      (hfind : signs.find? (fun s => s.isPrefixOf (c :: (t ++ (utf8 " " ++ rest)))) = some (c :: t))
      (hplain : (Lexis.sign (c :: t)).isPlain = true) (hchange : bracketChange (.sign (c :: t)) = 0) :
      Scans (c :: t) (utf8 " " ++ rest) 0 := by
    have hpasses := passes_sign hc hfind
    rw [hchange] at hpasses
    exact (hpasses.imp (plain_singleton hplain)).scans
  have word {t : Text} (ht : t.IsName) : Scans t (utf8 " " ++ rest) 0 := scans_word ht (stops_space rest)
  rcases hmem with ⟨rfl, _⟩ | ⟨rfl, _⟩ | ⟨rfl, _⟩ | ⟨rfl, _⟩ | ⟨rfl, _⟩ | ⟨rfl, _⟩ | ⟨rfl, _⟩ | ⟨rfl, _⟩ | ⟨rfl, _⟩ | ⟨rfl, _⟩
  · exact sign (c := 43) (t := []) rfl rfl rfl rfl
  · exact sign (c := 45) (t := []) rfl rfl rfl rfl
  · exact sign (c := 42) (t := []) rfl rfl rfl rfl
  · exact sign (c := 47) (t := []) rfl rfl rfl rfl
  · exact sign (c := 62) (t := []) rfl rfl rfl rfl
  · exact sign (c := 60) (t := []) rfl rfl rfl rfl
  · exact sign (c := 61) (t := [61]) rfl rfl rfl rfl
  · exact sign (c := 33) (t := [61]) rfl rfl rfl rfl
  · exact word ⟨97, [110, 100], rfl, rfl, List.all_eq_true.mp rfl⟩
  · exact word ⟨111, [114], rfl, rfl, List.all_eq_true.mp rfl⟩

end Scan

end Python

open Python

/-- Whether a string literal, if the node is one, closes at its own quote. -/
def Node.selfClosing : Node → Bool
  | .expr (.string _ value) => !Literal.escapesEnd value
  | _ => true

/-- A string literal, if the node is one, closes at its own quote. -/
abbrev Node.SelfClosing (n : Node) : Prop :=
  n.selfClosing = true

/-- The text of an expression is scanned as a whole: no literal in it reaches beyond its own quote. -/
theorem Expr.Sourced.scans {e : Expr} (h : e.Sourced) (hclosing : ∀ n ∈ e.walk, n.SelfClosing) :
    ∀ {rest : Text}, Scan.Stops rest → Scan.Scans e.python rest 0 := by
  induction e with
  | number t value =>
    intro rest hrest
    obtain ⟨b, hread, hpos⟩ := Text.IsNumeral.reading h.1.2 h.2
    exact Scan.scans_number (isText_pythonFloat hread hpos) hrest
  | string t value =>
    intro rest hrest
    have hquote := h.2 ▸ h.1.quote_not_mem
    have hend : Literal.escapesEnd value = false := by
      simpa [Node.SelfClosing, Node.selfClosing] using hclosing (.expr (.string t value)) (by simp [Expr.walk])
    exact Scan.scans_literal hquote hend hrest
  | var t => exact fun hrest => Scan.scans_word h.2.1 hrest
  | operation form left op right ihl ihr =>
    intro rest hrest
    obtain ⟨hl, ⟨kind, hk, hop⟩, hr⟩ := h
    simp only [Expr.walk, List.mem_cons, List.mem_append] at hclosing
    have hopen (more : Text) := ((Scan.passes_open more).imp (Scan.plain_singleton (by decide))).scans
    have hclose := ((Scan.passes_close rest).imp (Scan.plain_singleton (by decide))).scans
    have hspace (more : Text) : Scan.Scans (utf8 " ") more 0 :=
      ((Scan.passes_space more).imp (by rintro _ rfl; simp [Scan.Plain])).scans
    have hleft (more : Text) := ihl hl (fun n hn => hclosing n (Or.inr (Or.inl hn))) (Scan.stops_space more)
    have hright := ihr hr (fun n hn => hclosing n (Or.inr (Or.inr hn))) (Scan.stops_close rest)
    have hback := (hspace _).append (hright.append hclose)
    have hoperator : Scan.Scans (form.symbol op) (utf8 " " ++ (right.python ++ utf8 ")") ++ rest) 0 := by
      simpa only [List.append_assoc] using Scan.scans_operator hk hop (right.python ++ (utf8 ")" ++ rest))
    have hmiddle := (hspace _).append (hoperator.append hback)
    have hfront : Scan.Scans left.python (utf8 " " ++ (form.symbol op ++ (utf8 " " ++ (right.python ++ utf8 ")"))) ++ rest)
        0 := by
      simpa only [List.append_assoc] using hleft (form.symbol op ++ (utf8 " " ++ (right.python ++ (utf8 ")" ++ rest))))
    have hwhole := (hopen _).append (hfront.append hmiddle)
    simpa only [Expr.python, List.append_assoc, Int.zero_add, Int.add_right_neg] using hwhole
  | hole => exact h.elim

end EnglishScript
