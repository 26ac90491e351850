import EnglishScript.Proofs.ShortestDecimal

namespace EnglishScript

namespace DecimalReader

/-- The number that digits denote. Behind hexadecimal digits the exponent is one of two. -/
def Figures.number (n : Figures) : Radix → ℚ
  | .decimal => digitsValue (n.whole ++ n.fraction) * 10 ^ (signed n.negative (digitsValue n.exponent) - n.fraction.length)
  | .hexadecimal =>
    hexValue (n.whole ++ n.fraction) * 2 ^ (signed n.negative (digitsValue n.exponent) - 4 * n.fraction.length)

/-- The number that a text without a sign denotes. -/
def denoted? (s : Text) : Option ℚ :=
  (figures? .decimal s).map fun n => n.number .decimal

section Parts

variable {whole rest : Text} (hne : whole ≠ []) (hwhole : ∀ b ∈ whole, Text.isDigit b = true)
  (hrest : ∀ b ∈ rest.head?, Text.isDigit b = false) {negative : Bool} {exponent : Text}
  (he : exponent? 101 rest = some (negative, exponent))
include hne hwhole hrest he

theorem figures?_whole (hpoint : ∀ b ∈ rest.head?, b ≠ 46) :
    figures? .decimal (whole ++ rest) = some ⟨whole, [], negative, exponent⟩ := by
  unfold figures?
  simp only [Radix.isDigit, Radix.letter, Text.takeWhile_stop hrest, Text.dropWhile_stop hrest,
    List.takeWhile_eq_self_iff.mpr hwhole, List.dropWhile_eq_nil_iff.mpr hwhole, List.nil_append]
  split
  next more => exact absurd rfl (hpoint 46 rfl)
  next => simp [hne, he]

theorem figures?_fraction {digits : Text} (hdigits : ∀ b ∈ digits, Text.isDigit b = true) :
    figures? .decimal (whole ++ 46 :: (digits ++ rest)) = some ⟨whole, digits, negative, exponent⟩ := by
  have hpoint : ∀ b ∈ (46 :: (digits ++ rest)).head?, Text.isDigit b = false := by
    rintro _ ⟨⟩
    decide
  simp only [figures?, Radix.isDigit, Radix.letter, Text.takeWhile_stop hpoint, Text.dropWhile_stop hpoint,
    List.takeWhile_eq_self_iff.mpr hwhole, List.dropWhile_eq_nil_iff.mpr hwhole, List.nil_append,
    Text.takeWhile_stop hrest, Text.dropWhile_stop hrest, List.takeWhile_eq_self_iff.mpr hdigits,
    List.dropWhile_eq_nil_iff.mpr hdigits]
  simp [hne, he]

end Parts

theorem digitsValue_padded (n : Nat) (ds : Text) : digitsValue (Numeral.zeros n ++ ds) = digitsValue ds := by
  rw [digitsValue_append, digitsValue_zeros, Nat.zero_mul, Nat.zero_add]

theorem exponent?_minus {ds : Text} (hne : ds ≠ []) (hds : ds.all Text.isDigit = true) :
    exponent? 101 (101 :: 45 :: ds) = some (true, ds) := by
  simp [exponent?, takeSign, hne, hds, show Text.lowerByte 101 = 101 by decide]

theorem exponent?_plus {ds : Text} (hne : ds ≠ []) (hds : ds.all Text.isDigit = true) :
    exponent? 101 (101 :: 43 :: ds) = some (false, ds) := by
  simp [exponent?, takeSign, hne, hds, show Text.lowerByte 101 = 101 by decide]

theorem exponent?_exponentText (n : Int) : ∃ negative ds,
    exponent? 101 (utf8 "e" ++ Numeral.exponentText n) = some (negative, ds) ∧ digitsValue ds = n.natAbs ∧
      signed negative (digitsValue ds) = n := by
  have hne : Numeral.zeros (2 - (Text.ofNat n.natAbs).length) ++ Text.ofNat n.natAbs ≠ [] := by simp [Text.ofNat_ne_nil]
  have hds : (Numeral.zeros (2 - (Text.ofNat n.natAbs).length) ++ Text.ofNat n.natAbs).all Text.isDigit = true :=
    List.all_eq_true.mpr (List.forall_mem_append.mpr ⟨fun _ => Numeral.isDigit_zeros, fun _ => Text.isDigit_ofNat⟩)
  have hvalue : digitsValue (Numeral.zeros (2 - (Text.ofNat n.natAbs).length) ++ Text.ofNat n.natAbs) = n.natAbs := by
    rw [digitsValue_padded, digitsValue_ofNat]
  unfold Numeral.exponentText
  by_cases hneg : n < 0
  · rw [if_pos hneg, List.append_assoc]
    refine ⟨true, Numeral.zeros _ ++ Text.ofNat n.natAbs, exponent?_minus hne hds, hvalue, ?_⟩
    rw [hvalue, signed, if_pos rfl]
    omega
  · rw [if_neg hneg, List.append_assoc]
    refine ⟨false, Numeral.zeros _ ++ Text.ofNat n.natAbs, exponent?_plus hne hds, hvalue, ?_⟩
    rw [hvalue, signed, if_neg Bool.false_ne_true]
    omega

theorem signed_absent : signed false (digitsValue []) = 0 :=
  rfl

/-- A text is written in decimal digits that denote a number, with an exponent up to a bound. -/
def Writes (s : Text) (x : ℚ) (bound : Nat) : Prop :=
  ∃ n, figures? .decimal s = some n ∧ n.number .decimal = x ∧ digitsValue n.exponent ≤ bound

theorem Writes.denoted {s : Text} {x : ℚ} {bound : Nat} (h : Writes s x bound) : denoted? s = some x := by
  obtain ⟨n, hn, rfl, _⟩ := h
  rw [denoted?, hn, Option.map_some]

theorem Writes.mono {s : Text} {x : ℚ} {k l : Nat} (h : Writes s x k) (hkl : k ≤ l) : Writes s x l := by
  obtain ⟨n, hn, hx, hk⟩ := h
  exact ⟨n, hn, hx, hk.trans hkl⟩

theorem writes_zero : Writes (utf8 "0") 0 0 := by
  refine ⟨⟨[48], [], false, []⟩, by decide, ?_, le_rfl⟩
  rw [Figures.number, show digitsValue ([48] ++ []) = 0 by decide, Nat.cast_zero, zero_mul]

end DecimalReader

namespace Numeral

open DecimalReader

theorem length_zeros (n : Nat) : (zeros n).length = n :=
  List.length_replicate

/-- The positional text of a decimal denotes its value. -/
theorem Proper.writes_positional {d : Numeral} (h : d.Proper) : Writes d.positional d.value 0 := by
  obtain ⟨hne, hdigits⟩ := h
  have hend : ∀ b ∈ ([] : Text).head?, Text.isDigit b = false := by simp
  unfold Numeral.positional Numeral.value
  split
  next hlead =>
    have htext : utf8 "0." ++ zeros (-d.lead - 1).toNat ++ d.digits =
        [48] ++ 46 :: ((zeros (-d.lead - 1).toNat ++ d.digits) ++ []) := by
      rw [List.append_nil, List.append_assoc]
      rfl
    have hvalue : digitsValue ([48] ++ (zeros (-d.lead - 1).toNat ++ d.digits)) = digitsValue d.digits := by
      rw [← List.append_assoc]
      exact digitsValue_padded ((-d.lead - 1).toNat + 1) d.digits
    refine ⟨_, htext ▸ figures?_fraction (by simp) (List.all_eq_true.mp rfl) hend rfl
      (List.forall_mem_append.mpr ⟨fun _ => isDigit_zeros, hdigits⟩), ?_, le_rfl⟩
    rw [Figures.number, hvalue, List.length_append, length_zeros, signed_absent]
    congr 2
    omega
  next hlead =>
    dsimp only
    split
    next hshort =>
      have hall : ∀ b ∈ d.digits ++ zeros (d.lead.toNat + 1 - d.digits.length), Text.isDigit b = true :=
        List.forall_mem_append.mpr ⟨hdigits, fun _ => isDigit_zeros⟩
      have hwhole := figures?_whole (by simp [hne]) hall hend rfl (by simp)
      rw [List.append_nil] at hwhole
      refine ⟨_, hwhole, ?_, le_rfl⟩
      rw [Figures.number, List.append_nil, digitsValue_append, digitsValue_zeros, length_zeros, Nat.add_zero, Nat.cast_mul,
        Nat.cast_pow, Nat.cast_ofNat, mul_assoc, ← zpow_natCast, ← zpow_add₀ (by norm_num),
        signed_absent, List.length_nil]
      congr 2
      omega
    next hlong =>
      have htext : d.digits.take (d.lead.toNat + 1) ++ utf8 "." ++ d.digits.drop (d.lead.toNat + 1) =
          d.digits.take (d.lead.toNat + 1) ++ 46 :: (d.digits.drop (d.lead.toNat + 1) ++ []) := by
        rw [List.append_nil, List.append_assoc]
        rfl
      refine ⟨_, htext ▸ figures?_fraction (by simpa using hne) (fun b hb => hdigits b (List.mem_of_mem_take hb)) hend rfl
        (fun b hb => hdigits b (List.mem_of_mem_drop hb)), ?_, le_rfl⟩
      rw [Figures.number, List.take_append_drop, List.length_drop, signed_absent]
      congr 2
      omega

/-- The text of a decimal with an exponent denotes its value. -/
theorem Proper.writes_scientific {d : Numeral} (h : d.Proper) : Writes d.scientific d.value d.lead.natAbs := by
  obtain ⟨hne, hdigits⟩ := h
  have hfirst : d.digits.take 1 ≠ [] := by simpa using hne
  have hfirst' : ∀ b ∈ d.digits.take 1, Text.isDigit b = true := fun b hb => hdigits b (List.mem_of_mem_take hb)
  have hpower : ∀ b ∈ (utf8 "e" ++ exponentText d.lead).head?, b = 101 := by
    rintro _ ⟨⟩
    rfl
  have hletter : ∀ b ∈ (utf8 "e" ++ exponentText d.lead).head?, Text.isDigit b = false := by
    intro b hb
    rw [hpower b hb]
    decide
  obtain ⟨negative, exponent, hread, hsize, hlead⟩ := exponent?_exponentText d.lead
  unfold Numeral.scientific Numeral.value
  dsimp only
  split
  next hone =>
    have hdrop : d.digits.drop 1 = [] := List.isEmpty_iff.mp hone
    have htake : d.digits.take 1 = d.digits := List.take_of_length_le (List.drop_eq_nil_iff.mp hdrop)
    have hlength : d.digits.length = 1 := by
      have := List.drop_eq_nil_iff.mp hdrop
      have := List.length_pos_iff.mpr hne
      omega
    have hpoint : ∀ b ∈ (utf8 "e" ++ exponentText d.lead).head?, b ≠ 46 := by
      intro b hb
      rw [hpower b hb]
      decide
    rw [htake] at hfirst hfirst' ⊢
    rw [List.append_nil, List.append_assoc]
    refine ⟨_, figures?_whole hfirst hfirst' hletter hread hpoint, ?_, hsize.le⟩
    rw [Figures.number, List.append_nil, hlead, hlength]
    simp
  next hmore =>
    have htext : d.digits.take 1 ++ (utf8 "." ++ d.digits.drop 1) ++ utf8 "e" ++ exponentText d.lead =
        d.digits.take 1 ++ 46 :: (d.digits.drop 1 ++ (utf8 "e" ++ exponentText d.lead)) := by
      simp only [List.append_assoc]
      rfl
    rw [htext]
    refine ⟨_, figures?_fraction hfirst hfirst' hletter hread (fun b hb => hdigits b (List.mem_of_mem_drop hb)), ?_,
      hsize.le⟩
    have := List.length_pos_iff.mpr hne
    rw [Figures.number, List.take_append_drop, List.length_drop, hlead]
    congr 2
    omega

end Numeral

theorem listingFloat_digits {f : Float} {b : Binary} (hread : Reading.ofFloat f = .finite b) (hpos : b.negative = false) :
    (∀ c ∈ listingFloat f, Text.isNumeric c = true) ∧ ∃ d rest, listingFloat f = d :: rest ∧ Text.isDigit d = true := by
  have hsigned (t : Text) : b.signed t = t := by simp [Binary.signed, hpos]
  unfold listingFloat
  simp only [hread, hsigned]
  split
  next h =>
    have htext := (Binary.shortest_proper (by simpa using (Bool.and_eq_true_iff.mp h).1)).scientific
    exact ⟨htext.numeric, htext.first⟩
  next =>
    obtain ⟨whole, fraction, htext, hne, hwhole, hfraction⟩ := b.positional_digits
    rw [htext]
    obtain ⟨d, rest, rfl⟩ := List.exists_cons_of_ne_nil hne
    exact ⟨List.forall_mem_append.mpr ⟨fun c hc => Text.isNumeric_of_isDigit (hwhole c hc), hfraction.numeric⟩,
      d, _, rfl, hwhole d (List.mem_cons_self ..)⟩

/-- The text of a number in a listing denotes its decimal. -/
theorem denoted_listingFloat {f : Float} {b : Binary} (hread : Reading.ofFloat f = .finite b) (hpos : b.negative = false) :
    DecimalReader.denoted? (listingFloat f) = some b.decimal := by
  have hsigned (t : Text) : b.signed t = t := by simp [Binary.signed, hpos]
  unfold listingFloat Binary.decimal
  simp only [hread, hsigned, Binary.positional]
  by_cases hzero : b.mantissa = 0
  · simpa [hzero] using DecimalReader.writes_zero.denoted
  · have hproper := Binary.shortest_proper hzero
    simp only [hzero, ↓reduceIte]
    split
    · exact hproper.writes_scientific.denoted
    · exact hproper.writes_positional.denoted

/-- Numbers without a minus sign that are written alike in listings are the same. -/
theorem listingFloat_inj {f g : Float} {a b : Binary} (hf : Reading.ofFloat f = .finite a) (ha : a.negative = false)
    (hg : Reading.ofFloat g = .finite b) (hb : b.negative = false) (h : listingFloat f = listingFloat g) : f = g := by
  have hdecimal : a.decimal = b.decimal := by
    have htext := congrArg DecimalReader.denoted? h
    rw [denoted_listingFloat hf ha, denoted_listingFloat hg hb] at htext
    exact Option.some.inj htext
  have hsame : a = b := by
    have hnear := (Reading.canonical hf).nearest_decimal
    rw [hdecimal] at hnear
    exact hnear.unique (Reading.canonical hf) (Reading.canonical hg) (ha.trans hb.symm)
      (Reading.canonical hg).nearest_decimal
  exact Reading.ofFloat_inj hf (hsame ▸ hg)

end EnglishScript
