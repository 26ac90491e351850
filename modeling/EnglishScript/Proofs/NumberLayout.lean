import EnglishScript.Proofs.DecimalText
import EnglishScript.Proofs.FewestDigits

namespace EnglishScript

namespace Binary

/-- The text of a number without its sign. -/
def unsignedText (b : Binary) : Text :=
  if b.isTiny || b.isHuge then b.shortest.scientific else withPoint b.positional

end Binary

theorem pythonFloat_eq {f : Float} {b : Binary} (h : Reading.ofFloat f = .finite b) :
    pythonFloat f = b.signed b.unsignedText := by
  unfold pythonFloat Binary.unsignedText
  simp only [h]
  split <;> rfl

namespace DecimalReader

/-- A point and a zero behind digits change nothing. -/
theorem Writes.withPoint {whole fraction : Text} {x : ℚ} {bound : Nat} (hne : whole ≠ [])
    (hwhole : ∀ b ∈ whole, Text.isDigit b = true) (hfraction : Numeral.IsFraction fraction)
    (h : Writes (whole ++ fraction) x bound) : Writes (withPoint (whole ++ fraction)) x bound := by
  rcases hfraction with rfl | ⟨ds, rfl, hds⟩
  · have hend : ∀ b ∈ ([] : Text).head?, Text.isDigit b = false := by simp
    have hpoint : 46 ∉ whole := fun hmem => absurd (hwhole 46 hmem) (by decide)
    have htext : EnglishScript.withPoint (whole ++ []) = whole ++ 46 :: ([48] ++ []) := by
      simp [EnglishScript.withPoint, hpoint]
      rfl
    have hvalue : digitsValue (whole ++ [48]) = digitsValue whole * 10 := by
      rw [digitsValue_append]
      rfl
    obtain ⟨n, hn, rfl, hbound⟩ := h
    rw [figures?_whole hne hwhole hend rfl (by simp)] at hn
    obtain rfl := Option.some.inj hn
    have hzero : ∀ b ∈ ([48] : Text), Text.isDigit b = true := List.all_eq_true.mp rfl
    rw [htext]
    refine ⟨_, figures?_fraction hne hwhole hend rfl hzero, ?_, hbound⟩
    rw [Figures.number, Figures.number, hvalue, List.append_nil, signed_absent]
    push_cast
    norm_num
    ring
  · rwa [EnglishScript.withPoint, if_pos (by simp)]

end DecimalReader

theorem Binary.writes_unsignedText {b : Binary} {bound : Nat} (hlead : b.mantissa ≠ 0 → b.shortest.lead.natAbs ≤ bound) :
    DecimalReader.Writes b.unsignedText b.decimal bound := by
  unfold Binary.unsignedText
  split
  next h =>
    have hne := Binary.mantissa_ne_zero h
    rw [Binary.decimal, if_neg hne]
    exact (Binary.shortest_proper hne).writes_scientific.mono (hlead hne)
  next =>
    obtain ⟨whole, fraction, htext, hne, hwhole, hfraction⟩ := b.positional_digits
    rw [htext]
    refine DecimalReader.Writes.withPoint hne hwhole hfraction (DecimalReader.Writes.mono ?_ (Nat.zero_le _))
    rw [← htext, Binary.positional, Binary.decimal]
    split
    next => exact DecimalReader.writes_zero
    next hnonzero => exact (Binary.shortest_proper hnonzero).writes_positional

namespace Python

/-- An exponent: its letter, a sign and at least two digits. -/
def IsExponent (t : Text) : Prop :=
  ∃ sign ds, t = 101 :: sign :: ds ∧ (sign = 43 ∨ sign = 45) ∧ 2 ≤ ds.length ∧ ∀ b ∈ ds, Text.isDigit b = true

/-- A floating-point literal: digits with a point and digits behind it, with an exponent, or with both. -/
def IsFloat (t : Text) : Prop :=
  ∃ whole fraction power, t = whole ++ fraction ++ power ∧ whole ≠ [] ∧ (∀ b ∈ whole, Text.isDigit b = true) ∧
    Numeral.IsFraction fraction ∧ (fraction ≠ [] ∧ power = [] ∨ IsExponent power)

end Python

theorem Numeral.Proper.isFloat_scientific {d : Numeral} (h : d.Proper) : Python.IsFloat d.scientific := by
  obtain ⟨whole, fraction, htext, hne, hwhole, hfraction⟩ := h.scientific_digits
  exact ⟨whole, fraction, _, htext, hne, hwhole, hfraction, Or.inr (Numeral.exponentText_digits d.lead)⟩

theorem isFloat_withPoint {whole fraction : Text} (hne : whole ≠ []) (hwhole : ∀ b ∈ whole, Text.isDigit b = true)
    (hfraction : Numeral.IsFraction fraction) : Python.IsFloat (withPoint (whole ++ fraction)) := by
  obtain ⟨ds, htext, hds⟩ := Numeral.withPoint_digits hwhole hfraction
  exact ⟨whole, 46 :: ds, [], by rw [htext, List.append_nil], hne, hwhole, Or.inr ⟨ds, rfl, hds⟩,
    Or.inl ⟨List.cons_ne_nil _ _, rfl⟩⟩

/-- A point and digits have no letter of an exponent. -/
theorem letter_not_mem_withPoint {whole fraction : Text} (hwhole : ∀ b ∈ whole, Text.isDigit b = true)
    (hfraction : Numeral.IsFraction fraction) : 101 ∉ withPoint (whole ++ fraction) := by
  obtain ⟨ds, htext, _, hds⟩ := Numeral.withPoint_digits hwhole hfraction
  rw [htext, List.mem_append, List.mem_cons]
  rintro (hmem | hpoint | hmem)
  · exact absurd (hwhole 101 hmem) (by decide)
  · exact absurd hpoint (by decide)
  · exact absurd (hds 101 hmem) (by decide)

theorem Binary.isFloat_unsignedText (b : Binary) : Python.IsFloat b.unsignedText := by
  unfold Binary.unsignedText
  split
  next h => exact (Binary.shortest_proper (Binary.mantissa_ne_zero h)).isFloat_scientific
  next =>
    obtain ⟨whole, fraction, htext, hne, hwhole, hfraction⟩ := b.positional_digits
    rw [htext]
    exact isFloat_withPoint hne hwhole hfraction

theorem Binary.letter_mem_unsignedText (b : Binary) : 101 ∈ b.unsignedText ↔ (b.isTiny || b.isHuge) = true := by
  unfold Binary.unsignedText
  split
  next h => simp [Numeral.scientific, h, show (101 : UInt8) ∈ utf8 "e" by decide]
  next h =>
    obtain ⟨whole, fraction, htext, _, hwhole, hfraction⟩ := b.positional_digits
    rw [htext]
    exact iff_of_false (letter_not_mem_withPoint hwhole hfraction) h

namespace Binary

variable {a b : Binary}

theorem isTiny_iff : b.isTiny = true ↔ b.mantissa ≠ 0 ∧ b.magnitude < 10 ^ (-4 : Int) := by
  have hdown : (0 : ℚ) < b.scaleDown := by exact_mod_cast Nat.two_pow_pos (-b.exponent).toNat
  have hcast : b.mantissa * b.scaleUp * 10000 < b.scaleDown ↔ (b.mantissa * b.scaleUp * 10000 : ℚ) < b.scaleDown := by
    exact_mod_cast Iff.rfl
  rw [isTiny, Bool.and_eq_true, decide_eq_true_eq, decide_eq_true_eq, hcast, Shortest.scale_eq, magnitude]
  refine and_congr_right fun _ => ?_
  rw [show (10 : ℚ) ^ (-4 : Int) = 1 / 10000 by norm_num, lt_div_iff₀ (by norm_num),
    show (b.mantissa : ℚ) * (2 ^ b.exponent * b.scaleDown) * 10000 = b.mantissa * 2 ^ b.exponent * 10000 * b.scaleDown by ring,
    mul_lt_iff_lt_one_left hdown]

theorem isHuge_iff : b.isHuge = true ↔ 10 ^ (16 : Int) ≤ b.magnitude := by
  have hdown : (0 : ℚ) < b.scaleDown := by exact_mod_cast Nat.two_pow_pos (-b.exponent).toNat
  have hcast : Nat.pow 10 16 * b.scaleDown ≤ b.mantissa * b.scaleUp ↔ (10 ^ 16 * b.scaleDown : ℚ) ≤ b.mantissa * b.scaleUp := by
    rw [Nat.pow_eq]
    exact_mod_cast Iff.rfl
  rw [isHuge, decide_eq_true_eq, hcast, Shortest.scale_eq, magnitude, ← mul_assoc, mul_le_mul_iff_left₀ hdown]
  norm_cast

/-- The decimals are in the order of the numbers. -/
theorem Canonical.decimal_lt_iff (ha : a.Canonical) (hb : b.Canonical) : a.decimal < b.decimal ↔ a.magnitude < b.magnitude := by
  constructor
  · intro hlt
    by_contra hle
    rcases lt_or_eq_of_le (not_lt.mp hle) with hgt | heq
    · exact lt_asymm hlt (hb.nearest_decimal.lt hb ha ha.nearest_decimal hgt)
    · have hsame : { a with negative := b.negative } = b :=
        Canonical.eq ⟨ha.fits, ha.least, ha.full, ha.boundary⟩ hb rfl heq.symm
      rw [← hsame] at hlt
      exact lt_irrefl a.decimal hlt
  · exact ha.nearest_decimal.lt ha hb hb.nearest_decimal

/-- The number that `10 ^ -4` is read as. -/
def leastPositional : Binary := ⟨false, 7378697629483821, -66, false⟩

/-- The number that `10 ^ 16` is read as. -/
def leastHuge : Binary := ⟨false, 5000000000000000, 1, false⟩

theorem canonical_leastPositional : leastPositional.Canonical :=
  ⟨by decide, by decide, fun _ => by decide, by decide⟩

theorem canonical_leastHuge : leastHuge.Canonical :=
  ⟨by decide, by decide, fun _ => by decide, by decide⟩

theorem decimal_leastPositional : leastPositional.decimal = 10 ^ (-4 : Int) := by
  have hshortest : leastPositional.shortest = ⟨[49], -4⟩ := by decide +kernel
  rw [decimal, if_neg (by decide), hshortest, Numeral.value, show DecimalReader.digitsValue [49] = 1 by decide]
  norm_num

theorem decimal_leastHuge : leastHuge.decimal = 10 ^ (16 : Int) := by
  have hshortest : leastHuge.shortest = ⟨[49], 16⟩ := by decide +kernel
  rw [decimal, if_neg (by decide), hshortest, Numeral.value, show DecimalReader.digitsValue [49] = 1 by decide]
  norm_num

theorem lt_magnitude_leastPositional : (10 : ℚ) ^ (-4 : Int) < leastPositional.magnitude := by
  norm_num [magnitude, leastPositional]

theorem magnitude_leastHuge : leastHuge.magnitude = 10 ^ (16 : Int) := by
  norm_num [magnitude, leastHuge]

theorem Canonical.decimal_pos (hb : b.Canonical) (h : b.mantissa ≠ 0) : 0 < b.decimal :=
  calc (0 : ℚ) < 2 ^ b.exponent / 2 := half_pos b.step_pos
    _ ≤ b.low := half_step_le_low h
    _ ≤ b.decimal := hb.nearest_decimal.low_le.1

theorem Canonical.decimal_ne_zero_iff (hb : b.Canonical) : b.decimal ≠ 0 ↔ b.mantissa ≠ 0 := by
  refine ⟨fun hne hzero => hne ?_, fun hne => (hb.decimal_pos hne).ne'⟩
  rw [decimal, if_pos hzero]

theorem Canonical.isTiny_iff_decimal (hb : b.Canonical) : b.isTiny = true ↔ b.decimal ≠ 0 ∧ b.decimal < 10 ^ (-4 : Int) := by
  rw [isTiny_iff, hb.decimal_ne_zero_iff, ← decimal_leastPositional, hb.decimal_lt_iff canonical_leastPositional,
    decimal_leastPositional]
  refine and_congr_right fun _ => ⟨fun hlt => hlt.trans lt_magnitude_leastPositional, fun hlt => ?_⟩
  -- no number lies between the bound and the number that is nearest to it
  have hlow : leastPositional.low < 10 ^ (-4 : Int) := by
    rw [low_of_inner rfl]
    norm_num [leastPositional]
  have happart := (hb.apart canonical_leastPositional hlt).1
  have hhigh := b.magnitude_lt_high
  linarith

theorem Canonical.isHuge_iff_decimal (hb : b.Canonical) : b.isHuge = true ↔ 10 ^ (16 : Int) ≤ b.decimal := by
  rw [isHuge_iff, ← not_lt, ← not_lt, ← magnitude_leastHuge, ← hb.decimal_lt_iff canonical_leastHuge, decimal_leastHuge,
    magnitude_leastHuge]

end Binary

/-- A finite number is written as its shortest decimal, in the form of a floating-point literal behind a minus sign if it
is negative, and with an exponent exactly if the decimal's first digit stands for less than `10 ^ -4` or for at least
`10 ^ 16`. -/
theorem pythonFloat_layout {f : Float} {b : Binary} (hread : Reading.ofFloat f = .finite b) :
    b.IsShortest b.decimal ∧ ∃ t, pythonFloat f = (if b.negative then utf8 "-" ++ t else t) ∧
      DecimalReader.denoted? t = some b.decimal ∧ Python.IsFloat t ∧
      (101 ∈ t ↔ b.decimal ≠ 0 ∧ (Int.log 10 b.decimal < -4 ∨ 16 ≤ Int.log 10 b.decimal)) := by
  have hb := Reading.canonical hread
  have hdenoted : DecimalReader.denoted? b.unsignedText = some b.decimal :=
    (Binary.writes_unsignedText fun _ => le_rfl).denoted
  refine ⟨hb.isShortest_decimal, b.unsignedText, pythonFloat_eq hread, hdenoted, b.isFloat_unsignedText, ?_⟩
  rw [b.letter_mem_unsignedText, Bool.or_eq_true, hb.isTiny_iff_decimal, hb.isHuge_iff_decimal]
  by_cases hzero : b.decimal = 0
  · simp [hzero]
  · have hpos := hb.decimal_pos (hb.decimal_ne_zero_iff.mp hzero)
    have hlow := Int.lt_zpow_iff_log_lt (b := 10) (x := -4) (by decide) hpos
    have hhigh := Int.zpow_le_iff_le_log (b := 10) (x := 16) (by decide) hpos
    rw [← hlow, ← hhigh]
    simp only [ne_eq, hzero, not_false_eq_true, true_and, Nat.cast_ofNat]

/-- The number just below that of `10 ^ -4`, with a minus sign. -/
theorem pythonFloat_layout_below :
    Reading.ofFloat (Float.ofBits 0xBF1A36E2EB1C432C) = .finite ⟨true, 7378697629483820, -66, false⟩ ∧
      pythonFloat (Float.ofBits 0xBF1A36E2EB1C432C) = utf8 "-9.999999999999999e-05" ∧
      ∃ t, pythonFloat (Float.ofBits 0xBF1A36E2EB1C432C) = utf8 "-" ++ t ∧ Python.IsFloat t ∧
        DecimalReader.denoted? t = some (Binary.decimal ⟨true, 7378697629483820, -66, false⟩) := by
  have hread : Reading.ofFloat (Float.ofBits 0xBF1A36E2EB1C432C) = .finite ⟨true, 7378697629483820, -66, false⟩ := by
    decide +kernel
  obtain ⟨_, t, htext, hdenoted, hfloat, _⟩ := pythonFloat_layout hread
  exact ⟨hread, by decide +kernel, t, htext, hfloat, hdenoted⟩

end EnglishScript
