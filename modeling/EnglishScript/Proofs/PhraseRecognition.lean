import EnglishScript.Proofs.TokenText

namespace EnglishScript

/-- A source from the start of a span on is the span and what stands behind it. -/
theorem Span.drop_start (span : Span) (h : span.start ≤ span.stop) (source : Text) :
    source.drop span.start = span.bytes source ++ source.drop span.stop := by
  have hdrop : source.drop span.stop = (source.drop span.start).drop (span.stop - span.start) := by
    rw [List.drop_drop, Nat.add_sub_cancel' h]
  rw [hdrop, bytes, List.take_append_drop]

namespace Phrase

/-- The first phrase of a list that is found at an offset of a source, with the offset behind it. -/
def find? (phrases : List Phrase) (source : Text) (pos : Nat) : Option (Phrase × Nat) :=
  (firstMatch phrases (source.drop pos)).map fun found => (found.1, source.length - found.2.length)

/-- The phrase stands in the source from one offset up to another: the bytes between them spell its words, and the byte
behind them, if there is one, belongs to no word. -/
structure Stands (phrase : Phrase) (source : Text) (pos stop : Nat) : Prop where
  ordered : pos ≤ stop
  inside : stop ≤ source.length
  spelled : Spelled phrase.words (Span.bytes ⟨pos, stop⟩ source)
  ends : ∀ b, source[stop]? = some b → Text.isWord b = false

/-- A word of letters in either case. -/
def isLetters (w : Text) : Bool :=
  !w.isEmpty && (Text.lower w).all Text.isAlpha

theorem words_letters {phrase : Phrase} (h : phrase ∈ table) : ∀ w ∈ phrase.words, isLetters w = true := by
  simp only [table, List.mem_cons, List.not_mem_nil, or_false] at h
  rcases h with rfl | rfl | rfl | rfl <;> decide

theorem lower_of_sameLetters {t u : Text} (h : Text.sameLetters t u = true) : Text.lower t = Text.lower u :=
  beq_iff_eq.mp h

theorem isAlpha_of_sameLetters {word w : Text} (hw : isLetters w = true) (h : Text.sameLetters word w = true) :
    ∀ b ∈ word, Text.isAlpha b = true := by
  intro b hb
  have hall := ((Bool.and_eq_true _ _).mp hw).2
  have hlower : Text.lowerByte b ∈ Text.lower w := lower_of_sameLetters h ▸ List.mem_map_of_mem hb
  exact Text.isAlpha_of_lowerByte (List.all_eq_true.mp hall _ hlower)

theorem isWord_of_sameLetters {word w : Text} (hw : isLetters w = true) (h : Text.sameLetters word w = true) :
    ∀ b ∈ word, Text.isWord b = true := by
  intro b hb
  simp [Text.isWord, isAlpha_of_sameLetters hw h b hb]

theorem exists_letter {word w : Text} (hw : isLetters w = true) (h : Text.sameLetters word w = true) :
    ∃ c rest, word = c :: rest ∧ Text.isAlpha c = true := by
  have hempty := ((Bool.and_eq_true _ _).mp hw).1
  have hne : word ≠ [] := ne_nil_of_sameLetters h (by simpa using hempty)
  obtain ⟨c, rest, rfl⟩ := List.exists_cons_of_ne_nil hne
  exact ⟨c, rest, rfl, isAlpha_of_sameLetters hw h c (by simp)⟩

theorem isWord_of_isGap {b : UInt8} (h : isGap b = true) : Text.isWord b = false := by
  cases hb : Text.isWord b with
  | false => rfl
  | true => rw [Lexer.isGap_of_isWord hb] at h; cases h

theorem matchWord_of_letters {word w v : Text} (hw : isLetters w = true) (h : Text.sameLetters word w = true)
    (hv : ∀ b ∈ v.head?, Text.isWord b = false) : matchWord w (word ++ v) = some v := by
  have hword := isWord_of_sameLetters hw h
  rw [matchWord, ReadBack.takeWhile_append_stop hword hv, if_pos h, ReadBack.dropWhile_append_stop hword hv]

/-- Behind a word stands a gap with another word, or what follows the phrase. -/
theorem spelledMore_stop {ws : List Text} {bytes v : Text} (h : SpelledMore ws bytes)
    (hv : ∀ b ∈ v.head?, Text.isWord b = false) : ∀ b ∈ (bytes ++ v).head?, Text.isWord b = false := by
  cases ws with
  | nil =>
    cases h
    exact hv
  | cons w ws =>
    obtain ⟨gap, word, rest, rfl, hne, hgap, _⟩ := h
    obtain ⟨g, gap, rfl⟩ := List.exists_cons_of_ne_nil hne
    rintro b ⟨⟩
    exact isWord_of_isGap (hgap g (by simp))

theorem matchMore_of_spelled {ws : List Text} (hws : ∀ w ∈ ws, isLetters w = true) {v : Text}
    (hv : ∀ b ∈ v.head?, Text.isWord b = false) : ∀ {bytes : Text}, SpelledMore ws bytes →
      matchMore ws (bytes ++ v) = some v := by
  induction ws with
  | nil =>
    intro bytes h
    cases h
    rfl
  | cons w ws ih =>
    rintro bytes ⟨gap, word, rest, rfl, _, hgap, hsame, hmore⟩
    have hw := hws w (by simp)
    have hstop := spelledMore_stop hmore hv
    have hnogap : ∀ b ∈ (word ++ (rest ++ v)).head?, isGap b = false := by
      obtain ⟨c, letters, rfl, hc⟩ := exists_letter hw hsame
      rintro b ⟨⟩
      exact Lexer.isGap_of_isWord (by simp [Text.isWord, hc])
    -- the gap ends at the first letter of the word, and the word ends where no word byte follows
    rw [matchMore, List.append_assoc, List.append_assoc, ReadBack.dropWhile_append_stop hgap hnogap,
      matchWord_of_letters hw hsame hstop, Option.bind_some]
    exact ih (fun u hu => hws u (by simp [hu])) hmore

theorem matchWords_of_spelled {ws : List Text} (hws : ∀ w ∈ ws, isLetters w = true) {bytes v : Text}
    (h : Spelled ws bytes) (hv : ∀ b ∈ v.head?, Text.isWord b = false) : matchWords ws (bytes ++ v) = some v := by
  cases ws with
  | nil =>
    cases h
    rfl
  | cons w ws =>
    obtain ⟨word, rest, rfl, hsame, hmore⟩ := h
    rw [matchWords, List.append_assoc, matchWord_of_letters (hws w (by simp)) hsame (spelledMore_stop hmore hv),
      Option.bind_some]
    exact matchMore_of_spelled (fun u hu => hws u (by simp [hu])) hv hmore

/-- No word goes on behind the words that were read. -/
theorem matchMore_stop {ws : List Text} : ∀ {s after : Text}, matchMore ws s = some after →
    (∀ b ∈ s.head?, Text.isWord b = false) → ∀ b ∈ after.head?, Text.isWord b = false := by
  induction ws with
  | nil =>
    intro s after h hs
    cases Option.some.inj h
    exact hs
  | cons w ws ih =>
    intro s after h _
    obtain ⟨next, hword, hmore⟩ := Option.bind_eq_some_iff.mp h
    exact ih hmore (matchWord_some hword).2.2

theorem matchWords_stop {ws : List Text} (hne : ws ≠ []) {s after : Text} (h : matchWords ws s = some after) :
    ∀ b ∈ after.head?, Text.isWord b = false := by
  obtain ⟨w, ws, rfl⟩ := List.exists_cons_of_ne_nil hne
  obtain ⟨next, hword, hmore⟩ := Option.bind_eq_some_iff.mp h
  exact matchMore_stop hmore (matchWord_some hword).2.2

/-- A phrase is read at the start of a text exactly if the text goes on with its words and then with no word. -/
theorem matchWords_iff {phrase : Phrase} (hphrase : phrase ∈ table) {s after : Text} :
    matchWords phrase.words s = some after ↔
      ∃ bytes, s = bytes ++ after ∧ Spelled phrase.words bytes ∧ ∀ b ∈ after.head?, Text.isWord b = false := by
  constructor
  · intro h
    obtain ⟨bytes, hbytes, hspelled⟩ := matchWords_some (words_ne_nil hphrase) h
    exact ⟨bytes, hbytes, hspelled, matchWords_stop (table_words_ne_nil hphrase) h⟩
  · rintro ⟨bytes, rfl, hspelled, hafter⟩
    exact matchWords_of_spelled (words_letters hphrase) hspelled hafter

/-- Two words that are read from the same text have the same letters: each is all that the text has before the next gap. -/
theorem matchWord_same {w v s after after' : Text} (h : matchWord w s = some after) (h' : matchWord v s = some after') :
    after = after' ∧ Text.lower w = Text.lower v := by
  obtain ⟨hsplit, hsame, _⟩ := matchWord_some h
  obtain ⟨hsplit', hsame', _⟩ := matchWord_some h'
  have hafter : after = after' := List.append_cancel_left (hsplit.symm.trans hsplit')
  exact ⟨hafter, (lower_of_sameLetters hsame).symm.trans (lower_of_sameLetters hsame')⟩

/-- Of two lists of words that are read from the same text, one begins the other. -/
theorem matchMore_comparable {ws : List Text} : ∀ {vs : List Text} {s after after' : Text},
    matchMore ws s = some after → matchMore vs s = some after' →
      ws.map Text.lower <+: vs.map Text.lower ∨ vs.map Text.lower <+: ws.map Text.lower := by
  induction ws with
  | nil => exact fun _ _ => Or.inl List.nil_prefix
  | cons w ws ih =>
    intro vs s after after' h h'
    cases vs with
    | nil => exact Or.inr List.nil_prefix
    | cons v vs =>
      obtain ⟨next, hword, hmore⟩ := Option.bind_eq_some_iff.mp h
      obtain ⟨next', hword', hmore'⟩ := Option.bind_eq_some_iff.mp h'
      obtain ⟨rfl, hlower⟩ := matchWord_same hword hword'
      simp only [List.map_cons, hlower, List.cons_prefix_cons, true_and]
      exact ih hmore hmore'

/-- No phrase of the table begins another one. -/
theorem eq_of_begins {p q : Phrase} (hp : p ∈ table) (hq : q ∈ table)
    (h : p.words.map Text.lower <+: q.words.map Text.lower) : p = q := by
  have hall : (table.all fun p => table.all fun q =>
      !(p.words.map Text.lower).isPrefixOf (q.words.map Text.lower) || p == q) = true := by decide
  have hpair := List.all_eq_true.mp (List.all_eq_true.mp hall p hp) q hq
  rw [List.isPrefixOf_iff_prefix.mpr h] at hpair
  simpa using hpair

theorem matchWords_unique {p q : Phrase} (hp : p ∈ table) (hq : q ∈ table) {s after after' : Text}
    (h : matchWords p.words s = some after) (h' : matchWords q.words s = some after') : p = q := by
  obtain ⟨ws, hws, _⟩ := words_inner hp
  obtain ⟨vs, hvs, _⟩ := words_inner hq
  rw [hws] at h
  rw [hvs] at h'
  obtain ⟨next, hword, hmore⟩ := Option.bind_eq_some_iff.mp h
  obtain ⟨next', hword', hmore'⟩ := Option.bind_eq_some_iff.mp h'
  obtain ⟨rfl, _⟩ := matchWord_same hword hword'
  rcases matchMore_comparable hmore hmore' with hbegins | hbegins
  · exact eq_of_begins hp hq (by simpa [hws, hvs] using hbegins)
  · exact (eq_of_begins hq hp (by simpa [hws, hvs] using hbegins)).symm

/-- Of phrases of the table the first one found is the only one that can be found. -/
theorem firstMatch_iff {phrases : List Phrase} (hphrases : ∀ p ∈ phrases, p ∈ table) {s after : Text} {p : Phrase} :
    firstMatch phrases s = some (p, after) ↔ p ∈ phrases ∧ matchWords p.words s = some after := by
  refine ⟨firstMatch_some, ?_⟩
  rintro ⟨hp, h⟩
  cases hfirst : firstMatch phrases s with
  | none =>
    have hnone := List.findSome?_eq_none_iff.mp hfirst p hp
    rw [h] at hnone
    cases hnone
  | some found =>
    obtain ⟨q, rest⟩ := found
    obtain ⟨hq, hrest⟩ := firstMatch_some hfirst
    have heq : q = p := matchWords_unique (hphrases q hq) (hphrases p hp) hrest h
    subst heq
    rw [hrest] at h
    cases h
    rfl

/-- The order of the phrases does not matter. -/
theorem firstMatch_perm {phrases : List Phrase} (h : phrases.Perm table) (s : Text) :
    firstMatch phrases s = firstMatch table s := by
  refine Option.ext fun found => ?_
  obtain ⟨p, after⟩ := found
  rw [firstMatch_iff fun q hq => h.mem_iff.mp hq, firstMatch_iff fun _ hq => hq, h.mem_iff]

variable {phrase : Phrase} {source : Text} {pos stop : Nat}

theorem Stands.drop_eq (h : phrase.Stands source pos stop) :
    source.drop pos = Span.bytes ⟨pos, stop⟩ source ++ source.drop stop :=
  Span.drop_start ⟨pos, stop⟩ h.ordered source

theorem Stands.head_drop (h : phrase.Stands source pos stop) :
    ∀ b ∈ (source.drop stop).head?, Text.isWord b = false := by
  intro b hb
  rw [List.head?_drop] at hb
  exact h.ends b hb

theorem stands_iff (hphrase : phrase ∈ table) :
    phrase.Stands source pos stop ↔
      stop ≤ source.length ∧ matchWords phrase.words (source.drop pos) = some (source.drop stop) := by
  rw [matchWords_iff hphrase]
  constructor
  · intro h
    exact ⟨h.inside, _, h.drop_eq, h.spelled, h.head_drop⟩
  · rintro ⟨hinside, bytes, hbytes, hspelled, hends⟩
    have hlength := congrArg List.length hbytes
    simp only [List.length_append, List.length_drop] at hlength
    -- a phrase has bytes, so its offset lies inside the source and the lengths tell where it stops
    have hne := spelled_ne_nil (words_ne_nil hphrase) (table_words_ne_nil hphrase) hspelled
    have hpos : 0 < bytes.length := List.length_pos_iff.mpr hne
    have hstop : stop - pos = bytes.length := by omega
    have hspan : Span.bytes ⟨pos, stop⟩ source = bytes := by
      simp only [Span.bytes, hstop, hbytes, List.take_left]
    refine ⟨by omega, hinside, hspan ▸ hspelled, ?_⟩
    intro b hb
    exact hends b (by rw [List.head?_drop]; exact hb)

theorem find_iff :
    find? table source pos = some (phrase, stop) ↔ phrase ∈ table ∧ phrase.Stands source pos stop := by
  constructor
  · intro h
    obtain ⟨⟨p, after⟩, hfirst, heq⟩ := Option.map_eq_some_iff.mp h
    cases heq
    obtain ⟨hp, hwords⟩ := (firstMatch_iff fun _ hq => hq).mp hfirst
    obtain ⟨bytes, hbytes, _⟩ := (matchWords_iff hp).mp hwords
    have hsuffix : after <:+ source := (hbytes ▸ List.suffix_append bytes after).trans (List.drop_suffix pos source)
    have hafter : source.drop (source.length - after.length) = after := (List.suffix_iff_eq_drop.mp hsuffix).symm
    exact ⟨hp, (stands_iff hp).mpr ⟨Nat.sub_le _ _, by rw [hafter]; exact hwords⟩⟩
  · rintro ⟨hp, hstands⟩
    obtain ⟨hinside, hwords⟩ := (stands_iff hp).mp hstands
    have hfirst := (firstMatch_iff fun _ hq => hq).mpr ⟨hp, hwords⟩
    rw [find?, hfirst, Option.map_some, List.length_drop, Nat.sub_sub_self hinside]

/-- The bytes that stand in phrases: those of words and of the gaps between them. -/
def isInside (b : UInt8) : Bool :=
  Text.isWord b || isGap b

theorem spelledMore_inside {ws : List Text} (hws : ∀ w ∈ ws, isLetters w = true) : ∀ {bytes : Text},
    SpelledMore ws bytes → ∀ b ∈ bytes, isInside b = true := by
  induction ws with
  | nil =>
    intro bytes h b hb
    cases h
    cases hb
  | cons w ws ih =>
    rintro bytes ⟨gap, word, rest, rfl, _, hgap, hsame, hmore⟩ b hb
    have hword := isWord_of_sameLetters (hws w (by simp)) hsame
    have hrest := ih (fun u hu => hws u (by simp [hu])) hmore
    rcases List.mem_append.mp hb with hb | hb
    · simp [isInside, hgap b hb]
    · rcases List.mem_append.mp hb with hb | hb
      · simp [isInside, hword b hb]
      · exact hrest b hb

/-- The bytes of a phrase are a word, which starts with a letter, and further words. -/
theorem Stands.words (hphrase : phrase ∈ table) (h : phrase.Stands source pos stop) :
    ∃ c letters ws more, Span.bytes ⟨pos, stop⟩ source = c :: (letters ++ more) ∧ Text.isAlpha c = true ∧
      (∀ b ∈ c :: letters, Text.isWord b = true) ∧ (∀ w ∈ ws, isLetters w = true) ∧ SpelledMore ws more := by
  have hletters := words_letters hphrase
  have hspelled := h.spelled
  obtain ⟨ws, hws, _⟩ := words_inner hphrase
  rw [hws] at hspelled hletters
  obtain ⟨word, more, hbytes, hsame, hmore⟩ := hspelled
  have hfirst := hletters _ (List.mem_cons_self ..)
  have hword := isWord_of_sameLetters hfirst hsame
  obtain ⟨c, letters, rfl, hc⟩ := exists_letter hfirst hsame
  exact ⟨c, letters, ws, more, hbytes, hc, hword, fun u hu => hletters u (List.mem_cons_of_mem _ hu), hmore⟩

theorem Stands.inside_bytes (hphrase : phrase ∈ table) (h : phrase.Stands source pos stop) :
    ∀ b ∈ Span.bytes ⟨pos, stop⟩ source, isInside b = true := by
  obtain ⟨c, letters, ws, more, hbytes, _, hword, hws, hmore⟩ := h.words hphrase
  intro b hb
  rw [hbytes, ← List.cons_append] at hb
  rcases List.mem_append.mp hb with hb | hb
  · simp [isInside, hword b hb]
  · exact spelledMore_inside hws hmore b hb

theorem ascii_of_isInside {b : UInt8} (h : isInside b = true) : b < 128 := by
  simp only [isInside, Text.isWord, isGap, Bool.or_eq_true, beq_iff_eq] at h
  rcases h with (h | h) | h | h
  · exact Lexer.ascii_of_isAlpha h
  · exact Lexer.ascii_of_isDigit h
  · exact h ▸ by decide
  · exact h ▸ by decide

end Phrase

/-- Each ASCII byte in front of a text is a character of its own. -/
theorem Text.glyphs_ascii_append {u : Text} (hu : ∀ b ∈ u, b < 128) (v : Text) :
    (u ++ v).glyphs = u.map (fun b => .char (Char.ofNat b.toNat)) ++ v.glyphs := by
  induction u with
  | nil => rfl
  | cons a u ih =>
    have hfirst : firstGlyph a (u ++ v) = (.char (Char.ofNat a.toNat), 0) := by
      unfold firstGlyph
      exact if_pos (hu a (by simp))
    have hrest := ih fun b hb => hu b (by simp [hb])
    rw [List.cons_append, glyphs, glyphsFrom, hfirst, List.map_cons, List.cons_append, ← hrest, glyphs]

namespace Phrase

variable {phrase : Phrase} {source : Text} {pos stop : Nat}

theorem Stands.lf_not_mem (hphrase : phrase ∈ table) (h : phrase.Stands source pos stop) :
    Text.lf ∉ Span.bytes ⟨pos, stop⟩ source := by
  intro hlf
  have hinside := h.inside_bytes hphrase _ hlf
  cases hinside

theorem Stands.glyphs (hphrase : phrase ∈ table) (h : phrase.Stands source pos stop) :
    Text.glyphs (source.drop pos) =
      (Span.bytes ⟨pos, stop⟩ source).map (fun b => .char (Char.ofNat b.toNat)) ++ Text.glyphs (source.drop stop) := by
  rw [h.drop_eq]
  exact Text.glyphs_ascii_append (fun b hb => ascii_of_isInside (h.inside_bytes hphrase b hb)) _

theorem Stands.length_bytes (h : phrase.Stands source pos stop) :
    (Span.bytes ⟨pos, stop⟩ source).length = stop - pos := by
  have hordered := h.ordered
  have hinside := h.inside
  simp only [Span.bytes, List.length_take, List.length_drop]
  omega

/-- The place behind a phrase is on its line, one column on for each of its bytes. -/
theorem Stands.advance (hphrase : phrase ∈ table) (h : phrase.Stands source pos stop) (place : Position) :
    place.advance (Span.bytes ⟨pos, stop⟩ source) = ⟨place.line, place.column + (stop - pos : Nat)⟩ := by
  have hglyphs := Text.glyphs_ascii_append (fun b hb => ascii_of_isInside (h.inside_bytes hphrase b hb)) []
  have hnil : Text.glyphs [] = [] := rfl
  rw [List.append_nil, hnil, List.append_nil] at hglyphs
  rw [Position.advance_unbroken place (h.lf_not_mem hphrase), hglyphs, List.length_map, h.length_bytes]

theorem Stands.word_le (hphrase : phrase ∈ table) (h : phrase.Stands source pos stop) :
    pos + ((source.drop pos).takeWhile Text.isWord).length ≤ stop := by
  obtain ⟨c, letters, ws, more, hbytes, _, hword, _, hmore⟩ := h.words hphrase
  have hstop := spelledMore_stop hmore (h.head_drop)
  have htake : (source.drop pos).takeWhile Text.isWord = c :: letters := by
    rw [h.drop_eq, hbytes, ← List.cons_append, List.append_assoc,
      ReadBack.takeWhile_append_stop hword hstop]
  have hlength := h.length_bytes
  have hordered := h.ordered
  simp only [hbytes, List.length_cons, List.length_append] at hlength
  rw [htake, List.length_cons]
  omega

/-- The lexer makes one token of a phrase and goes on behind it. -/
theorem Stands.tokensFrom (hphrase : phrase ∈ table) (h : phrase.Stands source pos stop) (place : Position) :
    Lexer.tokensFrom 0 place (source.drop pos) =
      (Lexer.tokensFrom 0 ⟨place.line, place.column + (stop - pos : Nat)⟩ (source.drop stop)).map
        (⟨phrase.kind, phrase.spelling, place⟩ :: ·) := by
  obtain ⟨c, letters, ws, more, hbytes, hc, _⟩ := h.words hphrase
  have hsource : source.drop pos = c :: ((letters ++ more) ++ source.drop stop) := by
    rw [h.drop_eq, hbytes, List.cons_append]
  have hat : at? (c :: ((letters ++ more) ++ source.drop stop)) = some (phrase, source.drop stop) := by
    rw [← hsource]
    exact (firstMatch_iff fun _ hq => hq).mpr ⟨hphrase, ((stands_iff hphrase).mp h).2⟩
  have hpiece : Lexer.piece c ((letters ++ more) ++ source.drop stop) =
      .token phrase.kind phrase.spelling (letters ++ more).length := by
    rw [Lexer.piece_of_isWord _ (by simp [Text.isWord, hc]), if_neg (by simp [Text.isDigit_of_isAlpha hc]),
      Lexer.wordPiece_phrase hat, List.length_append, Nat.add_sub_cancel]
  have hplace := h.advance hphrase place
  rw [hbytes] at hplace
  rw [hsource, Lexer.tokensFrom, hpiece]
  simp only [List.take_left, hplace, Lexer.tokensFrom_skip (letters ++ more).length, List.drop_left]

/-- A phrase is found at an offset exactly if it stands there, up to the offset that is found with it. At most one phrase
of the table is found, so every order of the table finds the same. A phrase takes at least the word at its offset and
stays on its line, each of its bytes is a character of its own, and the lexer goes on exactly behind it. -/
theorem find_exact (source : Text) (pos : Nat) :
    (∀ phrase stop, find? table source pos = some (phrase, stop) ↔ phrase ∈ table ∧ phrase.Stands source pos stop) ∧
      (∀ p ∈ table, ∀ q ∈ table, (matchWords p.words (source.drop pos)).isSome →
        (matchWords q.words (source.drop pos)).isSome → p = q) ∧
      (∀ phrases, phrases.Perm table → find? phrases source pos = find? table source pos) ∧
      ∀ phrase stop, find? table source pos = some (phrase, stop) →
        pos + ((source.drop pos).takeWhile Text.isWord).length ≤ stop ∧
          Text.lf ∉ Span.bytes ⟨pos, stop⟩ source ∧
          Text.glyphs (source.drop pos) = (Span.bytes ⟨pos, stop⟩ source).map (fun b => .char (Char.ofNat b.toNat)) ++
            Text.glyphs (source.drop stop) ∧
          ∀ place : Position, Lexer.tokensFrom 0 place (source.drop pos) =
            (Lexer.tokensFrom 0 ⟨place.line, place.column + (stop - pos : Nat)⟩ (source.drop stop)).map
              (⟨phrase.kind, phrase.spelling, place⟩ :: ·) := by
  refine ⟨fun _ _ => find_iff, ?_, ?_, ?_⟩
  · intro p hp q hq hsome hsome'
    obtain ⟨after, h⟩ := Option.isSome_iff_exists.mp hsome
    obtain ⟨after', h'⟩ := Option.isSome_iff_exists.mp hsome'
    exact matchWords_unique hp hq h h'
  · intro phrases hperm
    rw [find?, find?, firstMatch_perm hperm]
  · intro phrase stop h
    obtain ⟨hphrase, hstands⟩ := find_iff.mp h
    exact ⟨hstands.word_le hphrase, hstands.lf_not_mem hphrase, hstands.glyphs hphrase, hstands.tokensFrom hphrase⟩

/-- A phrase in mixed case with two gaps, in front of a sign, found by the table in either direction. -/
theorem find_exact_less :
    let source := utf8 "x Is\t lEss  than(3"
    let less : Phrase := ⟨[utf8 "is", utf8 "less", utf8 "than"], .isLessThan⟩
    find? table source 2 = some (less, 16) ∧ less.Stands source 2 16 ∧ find? table.reverse source 2 = some (less, 16) ∧
      Lexer.tokensFrom 0 ⟨1, 3⟩ (source.drop 2) =
        (Lexer.tokensFrom 0 ⟨1, 17⟩ (utf8 "(3")).map (⟨.isLessThan, utf8 "is less than", ⟨1, 3⟩⟩ :: ·) := by
  intro source less
  have hfound : find? table source 2 = some (less, 16) := by decide +kernel
  obtain ⟨hiff, _, hperm, hpassed⟩ := find_exact source 2
  obtain ⟨_, _, _, htokens⟩ := hpassed less 16 hfound
  have hrest : source.drop 16 = utf8 "(3" := by decide +kernel
  have hnext := htokens ⟨1, 3⟩
  rw [hrest] at hnext
  exact ⟨hfound, ((hiff less 16).mp hfound).2, (hperm _ (List.reverse_perm table)).trans hfound, hnext⟩

end Phrase

end EnglishScript
