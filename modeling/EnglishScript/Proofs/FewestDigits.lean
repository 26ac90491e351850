import EnglishScript.Proofs.ShortestDecimal

namespace EnglishScript

/-- A decimal of at most `n` digits. -/
def HasDigits (x : ℚ) (n : Nat) : Prop :=
  ∃ (c : Nat) (power : Int), c < 10 ^ n ∧ x = c * 10 ^ power

theorem HasDigits.eq_zero {x : ℚ} (h : HasDigits x 0) : x = 0 := by
  obtain ⟨c, power, hc, rfl⟩ := h
  have hzero : c = 0 := by simpa using hc
  rw [hzero, Nat.cast_zero, zero_mul]

namespace Binary

/-- The decimal rounds to the number, none with fewer digits does, and none with as many digits is nearer to it. -/
def IsShortest (b : Binary) (x : ℚ) : Prop :=
  b.Nearest x ∧ ∃ n, HasDigits x n ∧
    ∀ y m, b.Nearest y → HasDigits y m → n ≤ m ∧ (m = n → |x - b.magnitude| ≤ |y - b.magnitude|)

variable {b : Binary}

theorem low_lt_magnitude (b : Binary) : b.low < b.magnitude := by
  have hstep := b.step_pos
  unfold low
  split <;> linarith

theorem magnitude_lt_high (b : Binary) : b.magnitude < b.high := by
  have hstep := b.step_pos
  unfold high
  linarith

/-- What lies between the number and a decimal that rounds to it rounds to it as well. -/
theorem Nearest.toward {x y : ℚ} (h : b.Nearest x)
    (hy : (x ≤ y ∧ y ≤ b.magnitude) ∨ (b.magnitude ≤ y ∧ y ≤ x)) : b.Nearest y := by
  have hdown := b.low_lt_magnitude
  have hup := b.magnitude_lt_high
  have hlow := h.low_le.1
  have hhigh := h.le_high.1
  by_cases hxy : x = y
  · exact hxy ▸ h
  · rcases hy with ⟨hle, hy⟩ | ⟨hy, hle⟩
    · have hlt := lt_of_le_of_ne hle hxy
      exact Or.inl ⟨by linarith, by linarith⟩
    · have hlt := lt_of_le_of_ne hle (Ne.symm hxy)
      exact Or.inl ⟨by linarith, by linarith⟩

end Binary

namespace Shortest

variable {b : Binary}

theorem lt_pow_leadingPower {num den : Nat} (hnum : 0 < num) (hden : 0 < den) :
    (num / den : ℚ) < 10 ^ (leadingPower num den + 1) := by
  have hden' : (0 : ℚ) < den := by exact_mod_cast hden
  unfold leadingPower
  split
  next hle =>
    have hlt : num < 10 ^ digitCount (num / den) * den := (Nat.div_lt_iff_lt_mul hden).mp (lt_pow_digitCount (num / den))
    rw [sub_add_cancel, zpow_natCast, div_lt_iff₀ hden']
    exact_mod_cast hlt
  next hlt =>
    have hquotient : 0 < (den - 1) / num := Nat.div_pos (by omega) hnum
    have hcount := digitCount_pos ((den - 1) / num)
    have hle : 10 ^ (digitCount ((den - 1) / num) - 1) * num < den := by
      have := (Nat.le_div_iff_mul_le hnum).mp (pow_digitCount_le hquotient)
      omega
    rw [show -(digitCount ((den - 1) / num) : Int) + 1 = -((digitCount ((den - 1) / num) - 1 : Nat) : Int) by omega, zpow_neg,
      zpow_natCast, div_lt_iff₀ hden', ← div_eq_inv_mul, lt_div_iff₀ (by positivity), mul_comm]
    exact_mod_cast hle

/-- Of the two points of a grid around the number, the nearer one of those that round to it is taken. -/
theorem onGrid_neighbour (h : b.mantissa ≠ 0) (power : Int) :
    ∃ below : Nat, (below : ℚ) * 10 ^ power ≤ b.magnitude ∧ b.magnitude < (below + 1 : Nat) * 10 ^ power ∧
      ∀ d, d = below ∨ d = below + 1 → b.Nearest (d * 10 ^ power) → ∃ c, (Target.ofBinary b).onGrid power = some c ∧
        |(c : ℚ) * 10 ^ power - b.magnitude| ≤ |(d : ℚ) * 10 ^ power - b.magnitude| := by
  obtain ⟨hbelow, habove⟩ := floor_spec (unit_pos b) power
  have hmiddle (below : Nat) := compareGrid_eq (2 * below + 1) power (2 * (Target.ofBinary b).value) (unit_pos b)
  push_cast at hmiddle
  simp only [mul_div_assoc, value_eq] at hbelow habove hmiddle
  unfold Target.onGrid
  simp only
  generalize (Target.ofBinary b).value * _ / _ = below at hbelow habove ⊢
  refine ⟨below, hbelow, habove, fun d hd hnear => ?_⟩
  have hdown : |(below : ℚ) * 10 ^ power - b.magnitude| = b.magnitude - below * 10 ^ power := by
    rw [abs_of_nonpos (by linarith)]
    ring
  have hup : |((below + 1 : Nat) : ℚ) * 10 ^ power - b.magnitude| = (below + 1) * 10 ^ power - b.magnitude := by
    rw [abs_of_nonneg (by linarith)]
    push_cast
    rfl
  rw [← accepts_iff_nearest h] at hnear
  rw [hmiddle below]
  split
  next =>
    split
    next hgt =>
      rw [cmp_eq_gt_iff] at hgt
      refine ⟨below, rfl, ?_⟩
      rcases hd with rfl | rfl
      · exact le_rfl
      · rw [hdown, hup]
        linarith
    next hlt =>
      rw [cmp_eq_lt_iff] at hlt
      refine ⟨below + 1, rfl, ?_⟩
      rcases hd with rfl | rfl
      · rw [hdown, hup]
        linarith
      · exact le_rfl
    next heq =>
      rw [cmp_eq_eq_iff] at heq
      have hsame : |(below : ℚ) * 10 ^ power - b.magnitude| = |((below + 1 : Nat) : ℚ) * 10 ^ power - b.magnitude| := by
        rw [hdown, hup]
        linarith
      refine ⟨_, rfl, ?_⟩
      split <;> rcases hd with rfl | rfl
      · exact le_rfl
      · exact hsame.le
      · exact hsame.ge
      · exact le_rfl
  next hfalse =>
    rcases hd with rfl | rfl
    · exact ⟨d, rfl, le_rfl⟩
    · exact absurd (hnear.symm.trans hfalse) (by decide)
  next hfalse _ =>
    rcases hd with rfl | rfl
    · exact absurd (hnear.symm.trans hfalse) (by decide)
    · exact ⟨below + 1, rfl, le_rfl⟩
  next hfirst hsecond =>
    rcases hd with rfl | rfl
    · exact absurd (hnear.symm.trans hfirst) (by decide)
    · exact absurd (hnear.symm.trans hsecond) (by decide)

/-- A grid gives the nearest of its points that round to the number. -/
theorem onGrid_nearest (h : b.mantissa ≠ 0) {power : Int} {d : Nat} (hd : b.Nearest (d * 10 ^ power)) :
    ∃ c, (Target.ofBinary b).onGrid power = some c ∧
      |(c : ℚ) * 10 ^ power - b.magnitude| ≤ |(d : ℚ) * 10 ^ power - b.magnitude| := by
  have hstep : (0 : ℚ) < 10 ^ power := zpow_pos (by norm_num) _
  obtain ⟨below, hbelow, habove, hchoice⟩ := onGrid_neighbour h power
  rcases Nat.lt_or_ge below d with hlt | hle
  · have hpoint : ((below + 1 : Nat) : ℚ) * 10 ^ power ≤ d * 10 ^ power :=
      mul_le_mul_of_nonneg_right (by exact_mod_cast hlt) hstep.le
    obtain ⟨c, hc, hdist⟩ := hchoice _ (Or.inr rfl) (hd.toward (Or.inr ⟨habove.le, hpoint⟩))
    refine ⟨c, hc, hdist.trans ?_⟩
    rw [abs_of_nonneg (by linarith), abs_of_nonneg (by linarith)]
    linarith
  · have hpoint : (d : ℚ) * 10 ^ power ≤ below * 10 ^ power :=
      mul_le_mul_of_nonneg_right (by exact_mod_cast hle) hstep.le
    obtain ⟨c, hc, hdist⟩ := hchoice _ (Or.inl rfl) (hd.toward (Or.inl ⟨hpoint, hbelow⟩))
    refine ⟨c, hc, hdist.trans ?_⟩
    rw [abs_of_nonpos (by linarith), abs_of_nonpos (by linarith)]
    linarith

/-- The choice of a grid is not above a point of the grid that is above the number. -/
theorem onGrid_le (h : b.mantissa ≠ 0) {power : Int} {c d : Nat} (hc : (Target.ofBinary b).onGrid power = some c)
    (hd : b.magnitude ≤ d * 10 ^ power) : c ≤ d := by
  by_contra hlt
  have hlt' : (d : ℚ) * 10 ^ power < c * 10 ^ power :=
    mul_lt_mul_of_pos_right (by exact_mod_cast not_le.mp hlt) (zpow_pos (by norm_num) _)
  have hnear := (accepts_iff_nearest h c _).mp (Target.onGrid_accepts hc)
  obtain ⟨c', hc', hdist⟩ := onGrid_nearest h (hnear.toward (Or.inr ⟨hd, hlt'.le⟩))
  cases Option.some.inj (hc.symm.trans hc')
  rw [abs_of_nonneg (by linarith), abs_of_nonneg (by linarith)] at hdist
  linarith

/-- If a decimal of at most `j + 1` digits rounds to the number, so does a point of the grid for these digits that is not
farther away. -/
theorem exists_onGrid {lead : Int} (hlead : (10 : ℚ) ^ lead ≤ b.magnitude) {x : ℚ} {j : Nat} (hx : b.Nearest x)
    (hdigits : HasDigits x (j + 1)) :
    ∃ d : Nat, b.Nearest (d * 10 ^ (lead - j)) ∧ |(d : ℚ) * 10 ^ (lead - j) - b.magnitude| ≤ |x - b.magnitude| := by
  have hten : (10 : ℚ) ≠ 0 := by norm_num
  obtain ⟨c, power, hc, rfl⟩ := hdigits
  by_cases hfine : lead - j ≤ power
  · have hpoint : ((c * 10 ^ (power - (lead - j)).toNat : Nat) : ℚ) * 10 ^ (lead - j) = c * 10 ^ power := by
      push_cast
      rw [mul_assoc, ← zpow_natCast, ← zpow_add₀ hten]
      congr 2
      omega
    exact ⟨c * 10 ^ (power - (lead - j)).toNat, by rwa [hpoint], by rw [hpoint]⟩
  · -- the decimal is below the power of ten of the first digit, which is a point of every grid
    have hpoint : ((10 ^ j : Nat) : ℚ) * 10 ^ (lead - j) = 10 ^ lead := by
      push_cast
      rw [← zpow_natCast, ← zpow_add₀ hten]
      congr 1
      omega
    have hle : (c : ℚ) * 10 ^ power ≤ 10 ^ lead :=
      calc (c : ℚ) * 10 ^ power ≤ 10 ^ (j + 1) * 10 ^ power := by
            refine mul_le_mul_of_nonneg_right ?_ (zpow_pos (by norm_num) _).le
            exact_mod_cast hc.le
        _ = 10 ^ ((j + 1 : Nat) + power : Int) := by rw [zpow_add₀ hten, zpow_natCast]
        _ ≤ 10 ^ lead := zpow_le_zpow_right₀ (by norm_num) (by omega)
    refine ⟨10 ^ j, ?_, ?_⟩ <;> rw [hpoint]
    · exact hx.toward (Or.inl ⟨hle, hlead⟩)
    · rw [abs_of_nonpos (by linarith), abs_of_nonpos (by linarith)]
      linarith

/-- The search for the shortest decimal ends at it. -/
theorem numeral_isShortest (hb : b.Canonical) (h : b.mantissa ≠ 0) :
    ∃ c power, (Target.ofBinary b).numeral = numeralOf c power ∧ b.IsShortest (c * 10 ^ power) := by
  obtain ⟨lead, n, c, hlead, hnumeral, hc, hnone⟩ := numeral_found hb h
  have hvalue : 0 < (Target.ofBinary b).value :=
    Nat.mul_pos (Nat.mul_pos (by decide) (Nat.pos_of_ne_zero h)) (Nat.two_pow_pos _)
  have hlow := pow_leadingPower_le hvalue (unit_pos b)
  have hhigh := lt_pow_leadingPower hvalue (unit_pos b)
  rw [← hlead, value_eq] at hlow hhigh
  have hnear := (accepts_iff_nearest h c _).mp (Target.onGrid_accepts hc)
  refine ⟨c, lead - n, hnumeral, hnear, n + 1, ?_, fun y m hy hdigits => ⟨?_, fun hm => ?_⟩⟩
  · have hpoint : ((10 ^ (n + 1) : Nat) : ℚ) * 10 ^ (lead - n) = 10 ^ (lead + 1) := by
      push_cast
      rw [← zpow_natCast, ← zpow_add₀ (by norm_num)]
      congr 1
      omega
    rcases Nat.lt_or_eq_of_le (onGrid_le h hc (hpoint ▸ hhigh.le)) with hlt | heq
    · exact ⟨c, lead - n, hlt, rfl⟩
    · exact ⟨1, lead + 1, Nat.one_lt_pow (by omega) (by decide), by rw [heq, hpoint, Nat.cast_one, one_mul]⟩
  · by_contra hfew
    cases m with
    | zero =>
      have hzero := hdigits.eq_zero
      have hlow := hy.low_le.1
      have hhalf := Binary.half_step_le_low h
      have hstep := b.step_pos
      linarith
    | succ j =>
      obtain ⟨d, hd, _⟩ := exists_onGrid hlow hy hdigits
      obtain ⟨c', hc', _⟩ := onGrid_nearest h hd
      rw [hnone j (by omega)] at hc'
      cases hc'
  · subst hm
    obtain ⟨d, hd, hdist⟩ := exists_onGrid hlow hy hdigits
    obtain ⟨c', hc', hdist'⟩ := onGrid_nearest h hd
    cases Option.some.inj (hc.symm.trans hc')
    exact hdist'.trans hdist

end Shortest

/-- The decimal that a number is written as is the shortest one. -/
theorem Binary.Canonical.isShortest_decimal {b : Binary} (hb : b.Canonical) : b.IsShortest b.decimal := by
  by_cases hzero : b.mantissa = 0
  · have hdecimal : b.decimal = 0 := by simp [Binary.decimal, hzero]
    refine ⟨hb.nearest_decimal, 0, ⟨0, 0, by decide, by simp [hdecimal]⟩, fun y m _ hdigits => ⟨Nat.zero_le m, ?_⟩⟩
    rintro rfl
    rw [hdecimal, hdigits.eq_zero]
  · obtain ⟨c, power, hnumeral, hshortest⟩ := Shortest.numeral_isShortest hb hzero
    rw [Binary.decimal, if_neg hzero, Binary.shortest, hnumeral, Shortest.value_numeralOf]
    exact hshortest

end EnglishScript
