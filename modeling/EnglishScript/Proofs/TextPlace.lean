import Mathlib.Data.List.TakeWhile
import EnglishScript.Token.Lexer

namespace EnglishScript

namespace Text

theorem within_eq_false {low high b : UInt8} (hlow : 128 ≤ low.toNat) (hb : b < 128) : within low high b = false := by
  have hbyte : b.toNat < 128 := UInt8.lt_iff_toNat_lt.mp hb
  simp only [within, Bool.and_eq_false_iff, decide_eq_false_iff_not, UInt8.le_iff_toNat_le]
  omega

theorem secondOfThree_eq_false (a : UInt8) {b : UInt8} (hb : b < 128) : secondOfThree a b = false := by
  refine within_eq_false ?_ hb
  split <;> decide

theorem secondOfFour_eq_false (a : UInt8) {b : UInt8} (hb : b < 128) : secondOfFour a b = false := by
  refine within_eq_false ?_ hb
  split <;> decide

/-- A character of several bytes holds no ASCII byte, so what stands behind one does not matter. -/
theorem firstGlyph_append (a : UInt8) (u : Text) {v : Text} (hv : ∀ b ∈ v.head?, b < 128) :
    firstGlyph a (u ++ v) = firstGlyph a u := by
  cases v with
  | nil => rw [List.append_nil]
  | cons x v =>
    have hx : x < 128 := hv x rfl
    have h2 : within 128 191 x = false := within_eq_false (by decide) hx
    have h3 := secondOfThree_eq_false a hx
    have h4 := secondOfFour_eq_false a hx
    -- at most three bytes behind `a` are looked at, and `x` refuses every form that reaches it
    rcases u with _ | ⟨b, _ | ⟨c, _ | ⟨d, u⟩⟩⟩ <;> rcases v with _ | ⟨y, _ | ⟨z, v⟩⟩ <;> simp [firstGlyph, *]

theorem toNat_ofNat (n : Nat) : (Char.ofNat n).toNat = n ∨ (Char.ofNat n).toNat = 0 := by
  by_cases hvalid : n.isValidChar
  · have hchar : Char.ofNat n = Char.ofNatAux n hvalid := dif_pos hvalid
    rw [hchar]
    exact Or.inl rfl
  · have hchar : Char.ofNat n = Char.ofNat 0 := dif_neg hvalid
    rw [hchar]
    exact Or.inr rfl

theorem ofNat_eq_newline {n : Nat} (h : Char.ofNat n = '\n') : n = 10 := by
  rcases toNat_ofNat n with hn | hn
  · rw [h] at hn
    exact hn.symm
  · rw [h] at hn
    cases hn

theorem within_toNat {low high b : UInt8} (h : within low high b = true) : low.toNat ≤ b.toNat ∧ b.toNat ≤ high.toNat := by
  simpa [within, UInt8.le_iff_toNat_le] using h

theorem code_of_three {a b : UInt8} (c : UInt8) (ha : within 224 239 a = true) (hb : secondOfThree a b = true) :
    128 ≤ ((a.toNat - 224) * 64 + payload b) * 64 + payload c := by
  have hfirst : 224 ≤ a.toNat := (within_toNat ha).1
  have hsecond := within_toNat hb
  by_cases hlead : a = 224
  · rw [if_pos hlead, if_neg (by rw [hlead]; decide)] at hsecond
    have hlow : 160 ≤ b.toNat := hsecond.1
    have hhigh : b.toNat ≤ 191 := hsecond.2
    simp only [payload]
    omega
  · have : a.toNat ≠ 224 := fun h => hlead (UInt8.toNat_inj.mp h)
    omega

theorem code_of_four {a b : UInt8} (c d : UInt8) (ha : within 240 244 a = true) (hb : secondOfFour a b = true) :
    128 ≤ (((a.toNat - 240) * 64 + payload b) * 64 + payload c) * 64 + payload d := by
  have hfirst : 240 ≤ a.toNat := (within_toNat ha).1
  have hsecond := within_toNat hb
  by_cases hlead : a = 240
  · rw [if_pos hlead, if_neg (by rw [hlead]; decide)] at hsecond
    have hlow : 144 ≤ b.toNat := hsecond.1
    have hhigh : b.toNat ≤ 191 := hsecond.2
    simp only [payload]
    omega
  · have : a.toNat ≠ 240 := fun h => hlead (UInt8.toNat_inj.mp h)
    omega

/-- What the first glyph of a text can be: an ASCII character, a stray byte, or a character of several bytes, none of them
ASCII. -/
theorem firstGlyph_cases (a : UInt8) (rest : Text) :
    (a < 128 ∧ firstGlyph a rest = (.char (Char.ofNat a.toNat), 0)) ∨
      (128 ≤ a ∧ firstGlyph a rest = (.stray a, 0)) ∨
      ∃ front back n, 128 ≤ a ∧ rest = front ++ back ∧ (∀ b ∈ front, 128 ≤ b) ∧ 128 ≤ n ∧
        firstGlyph a rest = (.char (Char.ofNat n), front.length) := by
  have beyond {low high b : UInt8} (hlow : 128 ≤ low.toNat) (h : within low high b = true) : 128 ≤ b := by
    refine UInt8.not_lt.mp fun hb => ?_
    rw [within_eq_false hlow hb] at h
    cases h
  have third {b : UInt8} (h : secondOfThree a b = true) : 128 ≤ b := by
    refine UInt8.not_lt.mp fun hb => ?_
    rw [secondOfThree_eq_false a hb] at h
    cases h
  have fourth {b : UInt8} (h : secondOfFour a b = true) : 128 ≤ b := by
    refine UInt8.not_lt.mp fun hb => ?_
    rw [secondOfFour_eq_false a hb] at h
    cases h
  by_cases ha : a < 128
  · exact Or.inl ⟨ha, by simp [firstGlyph, ha]⟩
  have hhigh : 128 ≤ a := UInt8.not_lt.mp ha
  refine Or.inr ?_
  unfold firstGlyph
  rw [if_neg ha]
  split
  next h2 =>
    have hfirst : 194 ≤ a.toNat := (within_toNat h2).1
    split
    next b back =>
      split
      next hb => exact Or.inr ⟨[b], back, _, hhigh, rfl, by simpa using beyond (by decide) hb, by omega, rfl⟩
      next => exact Or.inl ⟨hhigh, rfl⟩
    next => exact Or.inl ⟨hhigh, rfl⟩
  next =>
    split
    next h3 =>
      split
      next b c back =>
        split
        next hbc =>
          obtain ⟨hb, hc⟩ := Bool.and_eq_true_iff.mp hbc
          refine Or.inr ⟨[b, c], back, _, hhigh, rfl, ?_, code_of_three c h3 hb, rfl⟩
          simpa using ⟨third hb, beyond (by decide) hc⟩
        next => exact Or.inl ⟨hhigh, rfl⟩
      next => exact Or.inl ⟨hhigh, rfl⟩
    next =>
      split
      next h4 =>
        split
        next b c d back =>
          split
          next hbcd =>
            obtain ⟨hbc, hd⟩ := Bool.and_eq_true_iff.mp hbcd
            obtain ⟨hb, hc⟩ := Bool.and_eq_true_iff.mp hbc
            refine Or.inr ⟨[b, c, d], back, _, hhigh, rfl, ?_, code_of_four c d h4 hb, rfl⟩
            simpa using ⟨fourth hb, beyond (by decide) hc, beyond (by decide) hd⟩
          next => exact Or.inl ⟨hhigh, rfl⟩
        next => exact Or.inl ⟨hhigh, rfl⟩
      next => exact Or.inl ⟨hhigh, rfl⟩

theorem firstGlyph_newline {a : UInt8} {rest : Text} : (firstGlyph a rest).1 = .char '\n' ↔ a = lf := by
  constructor
  · intro h
    rcases firstGlyph_cases a rest with ⟨_, heq⟩ | ⟨_, heq⟩ | ⟨_, _, n, _, _, _, hn, heq⟩
    · rw [heq] at h
      exact UInt8.toNat_inj.mp (ofNat_eq_newline (Glyph.char.inj h))
    · rw [heq] at h
      cases h
    · rw [heq] at h
      have := ofNat_eq_newline (Glyph.char.inj h)
      omega
  · rintro rfl
    rfl

theorem glyphsFrom_append {u v : Text} (hv : ∀ b ∈ v.head?, b < 128) (skip : Nat) (hskip : skip ≤ u.length) :
    glyphsFrom skip (u ++ v) = glyphsFrom skip u ++ v.glyphs := by
  induction u generalizing skip with
  | nil =>
    have hzero : skip = 0 := by simpa using hskip
    subst hzero
    rfl
  | cons a u ih =>
    cases skip with
    | succ skip => exact ih skip (by simpa using hskip)
    | zero =>
      have hwidth : (firstGlyph a u).2 ≤ u.length := by
        rcases firstGlyph_cases a u with ⟨_, heq⟩ | ⟨_, heq⟩ | ⟨front, back, n, _, rfl, _, _, heq⟩
        · simp [heq]
        · simp [heq]
        · simp [heq]
      simp only [List.cons_append, glyphsFrom, firstGlyph_append a u hv, ih _ hwidth]

theorem ascii_head {c : UInt8} (hc : c < 128) (t : Text) : ∀ b ∈ (c :: t).head?, b < 128 := by
  rintro b ⟨⟩
  exact hc

/-- A text cut before an ASCII byte is cut between two glyphs. -/
theorem glyphs_append (u : Text) {v : Text} (hv : ∀ b ∈ v.head?, b < 128) : (u ++ v).glyphs = u.glyphs ++ v.glyphs :=
  glyphsFrom_append hv 0 (Nat.zero_le _)

theorem count_glyphsFrom {t : Text} (skip : Nat) (h : ∀ b ∈ t.take skip, b ≠ lf) :
    (glyphsFrom skip t).count (.char '\n') = t.lineFeeds := by
  unfold lineFeeds
  induction t generalizing skip with
  | nil => simp [glyphsFrom]
  | cons a t ih =>
    cases skip with
    | succ skip =>
      have ha : a ≠ lf := h a (by simp)
      rw [glyphsFrom, ih skip (fun b hb => h b (by simp [hb])), List.count_cons_of_ne ha]
    | zero =>
      have hrest : ∀ b ∈ t.take (firstGlyph a t).2, b ≠ lf := by
        rcases firstGlyph_cases a t with ⟨_, heq⟩ | ⟨_, heq⟩ | ⟨front, back, n, _, rfl, hfront, _, heq⟩
        · simp [heq]
        · simp [heq]
        · rw [heq]
          rintro b hb rfl
          exact absurd (hfront lf (by simpa using hb)) (by decide)
      rw [glyphsFrom, List.count_cons, ih _ hrest, List.count_cons]
      simp only [beq_iff_eq, firstGlyph_newline]

/-- The line feeds of a text are the glyphs that end a line. -/
theorem count_glyphs (t : Text) : t.glyphs.count (.char '\n') = t.lineFeeds :=
  count_glyphsFrom 0 (by simp)

/-- The part of a text behind its last line feed. -/
def lastLine (t : Text) : Text :=
  (t.reverse.takeWhile (· != lf)).reverse

theorem lastLine_eq_self {t : Text} (h : lf ∉ t) : t.lastLine = t := by
  unfold lastLine
  rw [List.takeWhile_eq_self_iff.mpr, List.reverse_reverse]
  intro b hb
  simp only [bne_iff_ne]
  rintro rfl
  exact h (List.mem_reverse.mp hb)

theorem lf_not_mem_lastLine (t : Text) : lf ∉ t.lastLine := by
  intro h
  have := List.mem_takeWhile_imp (List.mem_reverse.mp h)
  simp at this

theorem exists_lastLine {t : Text} (h : lf ∈ t) : ∃ u, t = u ++ lf :: t.lastLine := by
  have hsplit := List.takeWhile_append_dropWhile (p := (· != lf)) (l := t.reverse)
  cases hdrop : t.reverse.dropWhile (· != lf) with
  | nil =>
    have hall := List.dropWhile_eq_nil_iff.mp hdrop lf (List.mem_reverse.mpr h)
    simp at hall
  | cons b front =>
    have hb : b = lf := by
      have hne : t.reverse.dropWhile (· != lf) ≠ [] := by simp [hdrop]
      simpa [hdrop] using List.head_dropWhile_not (· != lf) hne
    rw [hdrop, hb] at hsplit
    refine ⟨front.reverse, ?_⟩
    have hback := congrArg List.reverse hsplit
    simpa [lastLine] using hback.symm

end Text

namespace Position

/-- The place behind a text that starts a source: lines are counted in line feeds, columns in the glyphs behind the last
one. -/
def behind (t : Text) : Position :=
  ⟨1 + t.lineFeeds, 1 + t.lastLine.glyphs.length⟩

theorem foldl_step_line (p : Position) (gs : List Glyph) : (gs.foldl step p).line = p.line + gs.count (.char '\n') := by
  induction gs generalizing p with
  | nil => simp
  | cons g gs ih =>
    rw [List.foldl_cons, ih, List.count_cons]
    by_cases hg : g = .char '\n'
    · simp only [step, hg, ↓reduceIte, beq_self_eq_true]
      omega
    · simp [step, hg]

theorem foldl_step_unbroken (p : Position) {gs : List Glyph} (h : Glyph.char '\n' ∉ gs) :
    gs.foldl step p = ⟨p.line, p.column + gs.length⟩ := by
  induction gs generalizing p with
  | nil => simp
  | cons g gs ih =>
    obtain ⟨hg, hgs⟩ := not_or.mp (mt List.mem_cons.mpr h)
    rw [List.foldl_cons, ih _ hgs]
    simp only [step, Ne.symm hg, ↓reduceIte, List.length_cons, Position.mk.injEq, true_and]
    omega

theorem advance_line (p : Position) (t : Text) : (p.advance t).line = p.line + t.lineFeeds := by
  rw [advance, foldl_step_line, Text.count_glyphs]

theorem advance_append (p : Position) (u : Text) {v : Text} (hv : ∀ b ∈ v.head?, b < 128) :
    p.advance (u ++ v) = (p.advance u).advance v := by
  rw [advance, Text.glyphs_append u hv, List.foldl_append]
  rfl

theorem advance_unbroken (p : Position) {t : Text} (h : Text.lf ∉ t) :
    p.advance t = ⟨p.line, p.column + t.glyphs.length⟩ := by
  refine foldl_step_unbroken p fun hmem => ?_
  have hcount := Text.count_glyphs t
  rw [Text.lineFeeds, List.count_eq_zero_of_not_mem h] at hcount
  exact List.count_eq_zero.mp hcount hmem

theorem advance_ne_self (p : Position) {t : Text} (ht : t ≠ []) : p.advance t ≠ p := by
  by_cases h : Text.lf ∈ t
  · intro heq
    have hline := advance_line p t
    have hfeeds : 0 < t.lineFeeds := List.count_pos_iff.mpr h
    rw [heq] at hline
    omega
  · rw [advance_unbroken p h]
    intro heq
    have hcolumn : p.column + t.glyphs.length = p.column := congrArg Position.column heq
    cases t with
    | nil => exact ht rfl
    | cons a rest =>
      simp only [Text.glyphs, Text.glyphsFrom, List.length_cons] at hcolumn
      omega

theorem advance_lf (p : Position) (t : Text) : p.advance (Text.lf :: t) = (⟨p.line + 1, 1⟩ : Position).advance t :=
  rfl

/-- Advancing over a text from the start of a source leads behind it. -/
theorem start_advance (t : Text) : start.advance t = behind t := by
  by_cases h : Text.lf ∈ t
  · obtain ⟨u, hu⟩ := Text.exists_lastLine h
    have hfeeds : t.lineFeeds = u.lineFeeds + 1 := by
      have hcount := congrArg Text.lineFeeds hu
      simpa [Text.lineFeeds, List.count_eq_zero_of_not_mem t.lf_not_mem_lastLine] using hcount
    -- the last line feed puts the column back to one
    have hlast : start.advance t = (⟨(start.advance u).line + 1, 1⟩ : Position).advance t.lastLine := by
      rw [← advance_lf, ← advance_append start u (Text.ascii_head (by decide) _), ← hu]
    rw [hlast, advance_unbroken _ t.lf_not_mem_lastLine, advance_line, behind, hfeeds]
    simp only [start, Position.mk.injEq, and_true]
    omega
  · rw [advance_unbroken start h, behind, Text.lastLine_eq_self h, Text.lineFeeds, List.count_eq_zero_of_not_mem h]
    rfl

theorem behind_advance (u : Text) {v : Text} (hv : ∀ b ∈ v.head?, b < 128) :
    (behind u).advance v = behind (u ++ v) := by
  rw [← start_advance, ← start_advance, advance_append start u hv]

end Position
end EnglishScript
