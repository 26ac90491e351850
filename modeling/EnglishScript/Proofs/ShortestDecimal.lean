import EnglishScript.Proofs.WholeFloat

namespace EnglishScript

namespace Binary

/-- The number without its sign. -/
def magnitude (b : Binary) : ℚ :=
  b.mantissa * 2 ^ b.exponent

/-- Half of the way down to the next number. -/
def low (b : Binary) : ℚ :=
  b.magnitude - (if b.boundary then 2 ^ b.exponent / 4 else 2 ^ b.exponent / 2)

/-- Half of the way up to the next number. -/
def high (b : Binary) : ℚ :=
  b.magnitude + 2 ^ b.exponent / 2

/-- The nearest number to `x` is `b`. Half of the way belongs to the number with the even mantissa. -/
def Nearest (b : Binary) (x : ℚ) : Prop :=
  (b.low < x ∧ x < b.high) ∨ (b.mantissa % 2 = 0 ∧ (x = b.low ∨ x = b.high))

/-- A number of the format: the mantissa has all its digits unless the exponent is the least one. -/
structure Canonical (b : Binary) : Prop where
  fits : b.mantissa < 2 ^ 53
  least : -1074 ≤ b.exponent
  full : b.exponent ≠ -1074 → 2 ^ 52 ≤ b.mantissa
  boundary : b.boundary = true ↔ b.mantissa = 2 ^ 52 ∧ b.exponent ≠ -1074

end Binary

theorem Reading.canonical {f : Float} {b : Binary} (h : Reading.ofFloat f = .finite b) : b.Canonical := by
  have hfits := Whole.mantissa_lt h
  unfold Reading.ofFloat at h
  dsimp only at h
  split at h
  next => split at h <;> cases h
  next =>
    split at h
    next =>
      cases h
      exact ⟨hfits, Int.le_refl _, fun h => absurd rfl h, by simp⟩
    next hexp =>
      cases h
      refine ⟨hfits, ?_, fun _ => Nat.le_add_right _ _, ?_⟩
      · change (-1074 : Int) ≤ _ - 1075
        omega
      · simp only [Bool.and_eq_true, decide_eq_true_eq, Nat.pow_eq]
        omega

/-- The bits of a finite number from its sign, mantissa and exponent. -/
theorem Reading.toBits_eq {f : Float} {b : Binary} (h : Reading.ofFloat f = .finite b) :
    f.toBits.toNat = (if b.negative then 2 ^ 63 else 0) +
      (if b.mantissa < 2 ^ 52 then b.mantissa else (b.exponent + 1075).toNat * 2 ^ 52 + (b.mantissa - 2 ^ 52)) := by
  have hbits : f.toBits.toNat < 2 ^ 64 := f.toBits.toNat_lt
  have hfraction : f.toBits.toNat % 2 ^ 52 < 2 ^ 52 := Nat.mod_lt _ (Nat.two_pow_pos 52)
  have hsign : (if (f.toBits.toNat / 2 ^ 63 == 1) = true then 2 ^ 63 else 0) = f.toBits.toNat / 2 ^ 63 * 2 ^ 63 := by
    simp only [beq_iff_eq]
    split <;> omega
  unfold Reading.ofFloat at h
  simp only [Nat.pow_eq] at h
  split at h
  next => split at h <;> cases h
  next =>
    split at h
    next =>
      cases h
      simp only
      rw [hsign, if_pos hfraction]
      omega
    next =>
      cases h
      simp only
      rw [hsign, if_neg (by omega)]
      omega

theorem Reading.ofFloat_inj {f g : Float} {b : Binary} (hf : Reading.ofFloat f = .finite b)
    (hg : Reading.ofFloat g = .finite b) : f = g :=
  Float.toBits_inj.mp (UInt64.toNat_inj.mp ((toBits_eq hf).trans (toBits_eq hg).symm))

namespace Binary

variable {a b : Binary}

theorem step_pos (b : Binary) : (0 : ℚ) < 2 ^ b.exponent :=
  zpow_pos two_pos _

theorem Canonical.eq (ha : a.Canonical) (hb : b.Canonical) (hsign : a.negative = b.negative)
    (h : a.magnitude = b.magnitude) : a = b := by
  have hexp : a.exponent = b.exponent := by
    rcases lt_trichotomy a.exponent b.exponent with hlt | heq | hgt
    · exact absurd h (Whole.scaled_lt ha.fits (hb.full (by have := ha.least; omega)) hlt).ne
    · exact heq
    · exact absurd h (Whole.scaled_lt hb.fits (ha.full (by have := hb.least; omega)) hgt).ne'
  have hmantissa : a.mantissa = b.mantissa := by
    unfold magnitude at h
    rw [hexp] at h
    exact_mod_cast mul_right_cancel₀ b.step_pos.ne' h
  have hboundary : a.boundary = b.boundary := by
    rw [Bool.eq_iff_iff, ha.boundary, hb.boundary, hmantissa, hexp]
  cases a
  cases b
  simp_all

theorem high_eq (b : Binary) : b.high = (b.mantissa + 1 / 2) * 2 ^ b.exponent := by
  rw [high, magnitude]
  ring

theorem low_of_boundary (h : b.boundary = true) : b.low = (b.mantissa - 1 / 4) * 2 ^ b.exponent := by
  rw [low, magnitude, if_pos h]
  ring

theorem low_of_inner (h : b.boundary = false) : b.low = (b.mantissa - 1 / 2) * 2 ^ b.exponent := by
  rw [low, magnitude, if_neg (by simp [h])]
  ring

theorem half_step_le_low (h : b.mantissa ≠ 0) : 2 ^ b.exponent / 2 ≤ b.low := by
  have hstep := b.step_pos
  have hone : (1 : ℚ) * 2 ^ b.exponent ≤ b.mantissa * 2 ^ b.exponent :=
    mul_le_mul_of_nonneg_right (by exact_mod_cast Nat.pos_of_ne_zero h) hstep.le
  unfold low magnitude
  split <;> linarith

theorem Canonical.le_low (hb : b.Canonical) (hexp : b.exponent ≠ -1074) : (2 ^ 52 - 1 / 4) * 2 ^ b.exponent ≤ b.low := by
  have hstep := b.step_pos
  cases hbound : b.boundary with
  | true =>
    rw [low_of_boundary hbound, (hb.boundary.mp hbound).1]
    norm_num
  | false =>
    have hne : b.mantissa ≠ 2 ^ 52 := fun h => absurd (hb.boundary.mpr ⟨h, hexp⟩) (by simp [hbound])
    have hlt : 2 ^ 52 + 1 ≤ b.mantissa := by
      have := hb.full hexp
      omega
    have hcast : (2 : ℚ) ^ 52 + 1 ≤ b.mantissa := by exact_mod_cast hlt
    rw [low_of_inner hbound]
    exact mul_le_mul_of_nonneg_right (by linarith) hstep.le

/-- The halves of the ways to the neighbours do not overlap, and where they meet one of the two mantissas is odd. -/
theorem Canonical.apart (ha : a.Canonical) (hb : b.Canonical) (h : a.magnitude < b.magnitude) :
    a.high ≤ b.low ∧ (a.high = b.low → a.mantissa % 2 = 1 ∨ b.mantissa % 2 = 1) := by
  have hstep := a.step_pos
  rw [high_eq]
  rcases lt_trichotomy a.exponent b.exponent with hlt | heq | hgt
  · -- the last place of the number above is at least twice that of the number below
    have hdouble : 2 * (2 : ℚ) ^ a.exponent ≤ 2 ^ b.exponent := by
      rw [← zpow_one_add₀ two_ne_zero]
      exact zpow_le_zpow_right₀ one_le_two (by omega)
    have hlow := hb.le_low (by have := ha.least; omega)
    have hbelow : (2 ^ 53 - 1 / 2) * (2 : ℚ) ^ a.exponent ≤ b.low := by linarith
    have hfits : (a.mantissa : ℚ) + 1 ≤ 2 ^ 53 := by exact_mod_cast ha.fits
    refine ⟨(mul_le_mul_of_nonneg_right (by linarith) hstep.le).trans hbelow, fun hmeet => Or.inl ?_⟩
    have hlast : (2 : ℚ) ^ 53 - 1 / 2 ≤ a.mantissa + 1 / 2 := le_of_mul_le_mul_right (hbelow.trans hmeet.ge) hstep
    have : a.mantissa + 1 = 2 ^ 53 := by exact_mod_cast (show (a.mantissa : ℚ) + 1 = 2 ^ 53 by linarith)
    omega
  · have hmantissa : a.mantissa + 1 ≤ b.mantissa := by
      unfold magnitude at h
      rw [heq] at h
      exact_mod_cast lt_of_mul_lt_mul_right h b.step_pos.le
    have hinner : b.boundary = false := by
      rw [Bool.eq_false_iff, ne_eq, hb.boundary]
      rintro ⟨hleast, hexp⟩
      have := ha.full (heq ▸ hexp)
      omega
    have hcast : (a.mantissa : ℚ) + 1 ≤ b.mantissa := by exact_mod_cast hmantissa
    rw [low_of_inner hinner, ← heq]
    refine ⟨mul_le_mul_of_nonneg_right (by linarith) hstep.le, fun hmeet => ?_⟩
    have hnext : (a.mantissa : ℚ) + 1 = b.mantissa := by linarith [mul_right_cancel₀ hstep.ne' hmeet]
    have : a.mantissa + 1 = b.mantissa := by exact_mod_cast hnext
    omega
  · exact absurd h (Whole.scaled_lt hb.fits (ha.full (by have := hb.least; omega)) hgt).le.not_gt

theorem low_lt_high (b : Binary) : b.low < b.high := by
  have hstep := b.step_pos
  rw [high_eq]
  cases hbound : b.boundary with
  | true =>
    rw [low_of_boundary hbound]
    exact mul_lt_mul_of_pos_right (by linarith) hstep
  | false =>
    rw [low_of_inner hbound]
    exact mul_lt_mul_of_pos_right (by linarith) hstep

theorem Nearest.low_le {x : ℚ} (h : b.Nearest x) : b.low ≤ x ∧ (b.low = x → b.mantissa % 2 = 0) := by
  rcases h with h | ⟨heven, rfl | rfl⟩
  · exact ⟨h.1.le, fun heq => absurd heq h.1.ne⟩
  · exact ⟨le_rfl, fun _ => heven⟩
  · exact ⟨b.low_lt_high.le, fun _ => heven⟩

theorem Nearest.le_high {x : ℚ} (h : b.Nearest x) : x ≤ b.high ∧ (x = b.high → b.mantissa % 2 = 0) := by
  rcases h with h | ⟨heven, rfl | rfl⟩
  · exact ⟨h.2.le, fun heq => absurd heq h.2.ne⟩
  · exact ⟨b.low_lt_high.le, fun _ => heven⟩
  · exact ⟨le_rfl, fun _ => heven⟩

/-- A greater number has the greater decimals. -/
theorem Nearest.lt (ha : a.Canonical) (hb : b.Canonical) {x y : ℚ} (hx : a.Nearest x) (hy : b.Nearest y)
    (hlt : a.magnitude < b.magnitude) : x < y := by
  obtain ⟨hle, hodd⟩ := ha.apart hb hlt
  obtain ⟨hhigh, heven⟩ := hx.le_high
  obtain ⟨hlow, heven'⟩ := hy.low_le
  refine lt_of_le_of_ne (hhigh.trans (hle.trans hlow)) ?_
  rintro rfl
  -- the decimal is where the two halves meet, and only one of the numbers may have it
  have hx' : x = a.high := le_antisymm hhigh (hle.trans hlow)
  have hy' : b.low = x := le_antisymm hlow (hhigh.trans hle)
  have := heven hx'
  have := heven' hy'
  rcases hodd (hx'.symm.trans hy'.symm) with h | h <;> omega

theorem Nearest.not_lt (ha : a.Canonical) (hb : b.Canonical) {x : ℚ} (hax : a.Nearest x) (hbx : b.Nearest x) :
    ¬a.magnitude < b.magnitude :=
  fun hlt => lt_irrefl x (hax.lt ha hb hbx hlt)

/-- A decimal is nearest to one number only. -/
theorem Nearest.unique (ha : a.Canonical) (hb : b.Canonical) (hsign : a.negative = b.negative) {x : ℚ}
    (hax : a.Nearest x) (hbx : b.Nearest x) : a = b :=
  ha.eq hb hsign (le_antisymm (le_of_not_gt (hbx.not_lt hb ha hax)) (le_of_not_gt (hax.not_lt ha hb hbx)))

end Binary

namespace Shortest

theorem power_split (power : Int) : (10 : ℚ) ^ power * 10 ^ (-power).toNat = 10 ^ power.toNat := by
  rw [← zpow_natCast, ← zpow_natCast, ← zpow_add₀ (by norm_num)]
  congr 1
  omega

theorem compareGrid_eq (c : Nat) (power : Int) (num : Nat) {den : Nat} (hden : 0 < den) :
    compareGrid c power num den = cmp ((c : ℚ) * 10 ^ power) (num / den) := by
  have hscale : (0 : ℚ) < 10 ^ (-power).toNat * den := by positivity
  have hleft : ((c * Nat.pow 10 power.toNat * den : Nat) : ℚ) = c * 10 ^ power * (10 ^ (-power).toNat * den) := by
    rw [Nat.pow_eq]
    push_cast
    rw [← power_split]
    ring
  have hright : ((num * Nat.pow 10 (-power).toNat : Nat) : ℚ) = num / den * (10 ^ (-power).toNat * den) := by
    rw [Nat.pow_eq]
    push_cast
    field_simp
  rw [compareGrid, ← cmp_eq_compare, ← Nat.strictMono_cast.cmp_map_eq (β := ℚ), hleft, hright, cmp_mul_pos_right hscale]

theorem Target.accepts_iff {t : Target} (hunit : 0 < t.unit) (c : Nat) (power : Int) :
    t.accepts c power = true ↔
      ((t.low / t.unit : ℚ) < c * 10 ^ power ∧ (c * 10 ^ power : ℚ) < t.high / t.unit) ∨
        (t.closed = true ∧ ((c * 10 ^ power : ℚ) = t.low / t.unit ∨ (c * 10 ^ power : ℚ) = t.high / t.unit)) := by
  rw [Target.accepts, compareGrid_eq _ _ _ hunit, compareGrid_eq _ _ _ hunit]
  cases hlow : cmp ((c : ℚ) * 10 ^ power) (t.low / t.unit) <;>
    cases hhigh : cmp ((c : ℚ) * 10 ^ power) (t.high / t.unit) <;>
    simp only [cmp_eq_lt_iff, cmp_eq_eq_iff, cmp_eq_gt_iff] at hlow hhigh <;> grind

theorem scale_eq (b : Binary) : (b.scaleUp : ℚ) = 2 ^ b.exponent * b.scaleDown := by
  rw [Binary.scaleUp, Binary.scaleDown, Nat.pow_eq, Nat.pow_eq]
  push_cast
  rw [← zpow_natCast, ← zpow_natCast, ← zpow_add₀ two_ne_zero]
  congr 1
  omega

theorem scaleDown_ne_zero (b : Binary) : (b.scaleDown : ℚ) ≠ 0 := by
  exact_mod_cast (Nat.two_pow_pos (-b.exponent).toNat).ne'

theorem unit_pos (b : Binary) : 0 < (Target.ofBinary b).unit :=
  Nat.mul_pos (by decide) (Nat.two_pow_pos _)

theorem value_eq (b : Binary) : ((Target.ofBinary b).value / (Target.ofBinary b).unit : ℚ) = b.magnitude := by
  have hdown := scaleDown_ne_zero b
  simp only [Target.ofBinary, Binary.magnitude]
  push_cast
  rw [scale_eq]
  field_simp

theorem low_eq {b : Binary} (h : b.mantissa ≠ 0) :
    ((Target.ofBinary b).low / (Target.ofBinary b).unit : ℚ) = b.low := by
  have hdown := scaleDown_ne_zero b
  have hvalue : 4 * b.scaleUp ≤ 4 * b.mantissa * b.scaleUp :=
    Nat.mul_le_mul_right b.scaleUp (show 4 ≤ 4 * b.mantissa by omega)
  simp only [Target.ofBinary, Binary.low, Binary.magnitude]
  rw [Nat.cast_sub (by split <;> omega)]
  split
  · push_cast
    rw [scale_eq]
    field_simp
  · push_cast
    rw [scale_eq]
    field_simp
    ring

theorem high_eq (b : Binary) : ((Target.ofBinary b).high / (Target.ofBinary b).unit : ℚ) = b.high := by
  have hdown := scaleDown_ne_zero b
  simp only [Target.ofBinary, Binary.high, Binary.magnitude]
  push_cast
  rw [scale_eq]
  field_simp
  ring

/-- The decimals that a target accepts are those that round to its number. -/
theorem accepts_iff_nearest {b : Binary} (h : b.mantissa ≠ 0) (c : Nat) (power : Int) :
    (Target.ofBinary b).accepts c power = true ↔ b.Nearest (c * 10 ^ power) := by
  rw [Target.accepts_iff (unit_pos b), low_eq h, high_eq]
  simp only [Binary.Nearest, Target.ofBinary, beq_iff_eq]

theorem digitCount_le_iff {n k : Nat} (hk : 0 < k) : digitCount n ≤ k ↔ n < 10 ^ k := by
  rw [digitCount, Text.ofNat, List.length_map]
  exact Nat.length_toDigits_le_iff (by decide) hk

theorem digitCount_pos (n : Nat) : 0 < digitCount n :=
  List.length_pos_iff.mpr (Text.ofNat_ne_nil n)

theorem lt_pow_digitCount (n : Nat) : n < 10 ^ digitCount n :=
  (digitCount_le_iff (digitCount_pos n)).mp (Nat.le_refl _)

theorem pow_digitCount_le {n : Nat} (h : 0 < n) : 10 ^ (digitCount n - 1) ≤ n := by
  by_contra hlt
  rcases Nat.eq_zero_or_pos (digitCount n - 1) with hzero | hpos
  · rw [hzero] at hlt
    omega
  · have := (digitCount_le_iff hpos).mpr (Nat.lt_of_not_le hlt)
    omega

/-- The power of ten of the first digit is not above the number. -/
theorem pow_leadingPower_le {num den : Nat} (hnum : 0 < num) (hden : 0 < den) :
    (10 : ℚ) ^ leadingPower num den ≤ num / den := by
  have hden' : (0 : ℚ) < den := by exact_mod_cast hden
  unfold leadingPower
  split
  next hle =>
    have hpow := pow_digitCount_le (Nat.div_pos hle hden)
    have hcount := digitCount_pos (num / den)
    rw [show (digitCount (num / den) : Int) - 1 = (digitCount (num / den) - 1 : Nat) by omega, zpow_natCast]
    calc (10 : ℚ) ^ (digitCount (num / den) - 1) ≤ (num / den : Nat) := by exact_mod_cast hpow
      _ ≤ num / den := Nat.cast_div_le
  next hlt =>
    have hpow : den ≤ num * 10 ^ digitCount ((den - 1) / num) := by
      have := (Nat.div_lt_iff_lt_mul hnum).mp (lt_pow_digitCount ((den - 1) / num))
      rw [Nat.mul_comm] at this
      omega
    have hcast : (den : ℚ) ≤ num * 10 ^ digitCount ((den - 1) / num) := by exact_mod_cast hpow
    rw [zpow_neg, zpow_natCast, inv_le_comm₀ (by positivity) (by positivity), inv_div, div_le_iff₀ (by positivity)]
    linarith

end Shortest

namespace Binary

/-- The ways to the neighbours are not small against the number. -/
theorem Canonical.magnitude_le {b : Binary} (hb : b.Canonical) :
    b.magnitude ≤ 2 ^ 54 * (b.magnitude - b.low) ∧ b.magnitude ≤ 2 ^ 54 * (b.high - b.magnitude) := by
  have hstep := b.step_pos
  have hfits : b.magnitude ≤ 2 ^ 53 * 2 ^ b.exponent :=
    mul_le_mul_of_nonneg_right (by exact_mod_cast hb.fits.le) hstep.le
  constructor
  · cases hbound : b.boundary with
    | true =>
      have hleast : b.magnitude = 2 ^ 52 * 2 ^ b.exponent := by
        rw [magnitude, (hb.boundary.mp hbound).1]
        norm_num
      rw [low, if_pos hbound]
      linarith
    | false =>
      rw [low, if_neg (by simp [hbound])]
      linarith
  · rw [high]
    linarith

end Binary

namespace Shortest

/-- The multiple of a power of ten just below the number of a target. -/
theorem floor_spec {t : Target} (hunit : 0 < t.unit) (power : Int) :
    let below := t.value * Nat.pow 10 (-power).toNat / (t.unit * Nat.pow 10 power.toNat)
    (below : ℚ) * 10 ^ power ≤ t.value / t.unit ∧ (t.value / t.unit : ℚ) < (below + 1 : Nat) * 10 ^ power := by
  intro below
  have hstep : (0 : ℚ) < 10 ^ power := zpow_pos (by norm_num) _
  have hunit' : (0 : ℚ) < t.unit := by exact_mod_cast hunit
  have hquotient : below = ⌊(t.value / t.unit / 10 ^ power : ℚ)⌋₊ := by
    refine (Nat.floor_div_eq_div (K := ℚ) _ _).symm.trans (congrArg Nat.floor ?_)
    rw [Nat.pow_eq, Nat.pow_eq]
    push_cast
    rw [← power_split power]
    field_simp
  rw [hquotient]
  constructor
  · exact (le_div_iff₀ hstep).mp (Nat.floor_le (by positivity))
  · push_cast
    exact (div_lt_iff₀ hstep).mp (Nat.lt_floor_add_one _)

/-- Among the multiples of the seventeenth place one rounds to the number. -/
theorem onGrid_isSome {b : Binary} (hb : b.Canonical) (h : b.mantissa ≠ 0) {power : Int}
    (hpower : 10 ^ 16 * (10 : ℚ) ^ power ≤ b.magnitude) : ((Target.ofBinary b).onGrid power).isSome = true := by
  obtain ⟨hbelow, habove⟩ := floor_spec (unit_pos b) power
  rw [value_eq] at hbelow habove
  have hstep : (0 : ℚ) < 10 ^ power := zpow_pos (by norm_num) _
  obtain ⟨hdown, hup⟩ := hb.magnitude_le
  unfold Target.onGrid
  simp only
  generalize (Target.ofBinary b).value * _ / _ = below at hbelow habove ⊢
  have hsome : (Target.ofBinary b).accepts below power = true ∨ (Target.ofBinary b).accepts (below + 1) power = true := by
    rw [accepts_iff_nearest h, accepts_iff_nearest h]
    by_cases hnear : b.low < below * 10 ^ power
    · exact Or.inl (Or.inl ⟨hnear, by linarith⟩)
    · refine Or.inr (Or.inl ⟨by linarith, ?_⟩)
      push_cast
      linarith
  split
  next => split <;> rfl
  next => rfl
  next => rfl
  next hfirst hsecond => simp [hfirst, hsecond] at hsome

/-- The search for the shortest decimal ends at the first grid with a decimal that rounds to the number. -/
theorem numeral_found {b : Binary} (hb : b.Canonical) (h : b.mantissa ≠ 0) :
    ∃ (lead : Int) (n c : Nat), lead = leadingPower (Target.ofBinary b).value (Target.ofBinary b).unit ∧
      (Target.ofBinary b).numeral = numeralOf c (lead - n) ∧ (Target.ofBinary b).onGrid (lead - n) = some c ∧
      ∀ m : Nat, m < n → (Target.ofBinary b).onGrid (lead - m) = none := by
  have hvalue : 0 < (Target.ofBinary b).value :=
    Nat.mul_pos (Nat.mul_pos (by decide) (Nat.pos_of_ne_zero h)) (Nat.two_pow_pos _)
  have hlead := pow_leadingPower_le hvalue (unit_pos b)
  rw [value_eq] at hlead
  unfold Target.numeral
  simp only
  generalize leadingPower (Target.ofBinary b).value (Target.ofBinary b).unit = lead at hlead ⊢
  have hlast : ((Target.ofBinary b).onGrid (lead - (16 : Nat))).isSome = true := by
    refine onGrid_isSome hb h ?_
    rwa [← zpow_natCast, ← zpow_add₀ (by norm_num), show ((16 : Nat) : Int) + (lead - (16 : Nat)) = lead by omega]
  generalize hfound : List.findSome? _ _ = found
  cases found with
  | none =>
    have hnone := List.findSome?_eq_none_iff.mp hfound 16 (by decide)
    rw [Option.map_eq_none_iff.mp hnone] at hlast
    cases hlast
  | some d =>
    obtain ⟨before, n, behind, hrange, hn, hbefore⟩ := List.findSome?_eq_some_iff.mp hfound
    obtain ⟨c, hc, rfl⟩ := Option.map_eq_some_iff.mp hn
    refine ⟨lead, n, c, rfl, rfl, hc, fun m hm => ?_⟩
    -- the numbers of grids are tried in order, so a smaller one was tried before
    have hsorted : (before ++ n :: behind).Pairwise (· < ·) := hrange ▸ List.pairwise_lt_range
    have hmem : m ∈ before ++ n :: behind := by
      have hlt : n < maxDigits := List.mem_range.mp (hrange ▸ List.mem_append_right _ (List.mem_cons_self ..))
      exact hrange ▸ List.mem_range.mpr (by omega)
    rcases List.mem_append.mp hmem with hm' | hm'
    · exact Option.map_eq_none_iff.mp (hbefore m hm')
    · rcases List.mem_cons.mp hm' with rfl | hm'
      · exact absurd hm (Nat.lt_irrefl _)
      · have := (List.pairwise_cons.mp (List.pairwise_append.mp hsorted).2.1).1 m hm'
        omega

theorem numeral_nearest {b : Binary} (hb : b.Canonical) (h : b.mantissa ≠ 0) :
    ∃ c power, (Target.ofBinary b).numeral = numeralOf c power ∧ b.Nearest (c * 10 ^ power) := by
  obtain ⟨lead, n, c, _, hnumeral, hc, _⟩ := numeral_found hb h
  exact ⟨c, lead - n, hnumeral, (accepts_iff_nearest h c _).mp (Target.onGrid_accepts hc)⟩

end Shortest

namespace DecimalReader

theorem foldl_digits (ds : Text) (n : Nat) :
    ds.foldl (fun n d => n * 10 + (d.toNat - 48)) n = n * 10 ^ ds.length + digitsValue ds := by
  induction ds generalizing n with
  | nil => simp [digitsValue]
  | cons d ds ih =>
    rw [digitsValue, List.foldl_cons, List.foldl_cons, ih, ih (0 * 10 + (d.toNat - 48)), List.length_cons, pow_succ]
    ring

theorem digitsValue_append (ds es : Text) : digitsValue (ds ++ es) = digitsValue ds * 10 ^ es.length + digitsValue es := by
  rw [digitsValue, List.foldl_append, foldl_digits es]
  rfl

theorem digitsValue_zeros (n : Nat) : digitsValue (Numeral.zeros n) = 0 := by
  induction n with
  | zero => rfl
  | succ n ih => exact ih

theorem digitsValue_ofNat (n : Nat) : digitsValue (Text.ofNat n) = n := by
  have hdigit : ∀ k < 10, digitsValue [k.digitChar.toNat.toUInt8] = k := by decide
  induction n using Nat.strongRecOn with
  | ind n ih =>
    by_cases hn : n < 10
    · rw [Text.ofNat, Nat.toDigits_of_lt_base hn]
      exact hdigit n hn
    · have hsplit : Text.ofNat n = Text.ofNat (n / 10) ++ [(n % 10).digitChar.toNat.toUInt8] := by
        rw [Text.ofNat, Nat.toDigits_of_base_le (by decide) (by omega), List.map_append]
        rfl
      rw [hsplit, digitsValue_append, ih (n / 10) (by omega), hdigit _ (Nat.mod_lt _ (by decide)), List.length_singleton]
      omega

end DecimalReader

/-- The number that a numeral stands for. -/
def Numeral.value (d : Numeral) : ℚ :=
  DecimalReader.digitsValue d.digits * 10 ^ (d.lead + 1 - d.digits.length)

namespace Shortest

theorem ofNat_eq_significant (n : Nat) : ∃ k, Text.ofNat n = significant n ++ Numeral.zeros k := by
  have hzeros : (Text.ofNat n).reverse.takeWhile (· == 48) =
      Numeral.zeros ((Text.ofNat n).reverse.takeWhile (· == 48)).length :=
    List.eq_replicate_of_mem fun b hb => by simpa using List.mem_takeWhile_imp hb
  refine ⟨((Text.ofNat n).reverse.takeWhile (· == 48)).length, List.reverse_injective ?_⟩
  rw [List.reverse_append, significant, List.reverse_reverse, Numeral.zeros, List.reverse_replicate, ← Numeral.zeros,
    ← hzeros, List.takeWhile_append_dropWhile]

theorem value_numeralOf (c : Nat) (power : Int) : (numeralOf c power).value = c * 10 ^ power := by
  obtain ⟨k, hk⟩ := ofNat_eq_significant c
  have hvalue : c = DecimalReader.digitsValue (significant c) * 10 ^ k := by
    have := congrArg DecimalReader.digitsValue hk
    rwa [DecimalReader.digitsValue_ofNat, DecimalReader.digitsValue_append, DecimalReader.digitsValue_zeros,
      Nat.add_zero, Numeral.zeros, List.length_replicate] at this
  have hlength : digitCount c = (significant c).length + k := by
    rw [digitCount, hk, List.length_append, Numeral.zeros, List.length_replicate]
  have hexp : (digitCount c : Int) - 1 + power + 1 - (significant c).length = k + power := by omega
  rw [Numeral.value, numeralOf, hexp, zpow_add₀ (by norm_num), zpow_natCast, ← mul_assoc]
  congr 1
  exact_mod_cast hvalue.symm

end Shortest

/-- The decimal that a number is written as. -/
def Binary.decimal (b : Binary) : ℚ :=
  if b.mantissa = 0 then 0 else b.shortest.value

/-- The decimal that a number is written as rounds to the number. -/
theorem Binary.Canonical.nearest_decimal {b : Binary} (hb : b.Canonical) : b.Nearest b.decimal := by
  unfold Binary.decimal
  split
  next hzero =>
    have hmagnitude : b.magnitude = 0 := by rw [Binary.magnitude, hzero, Nat.cast_zero, zero_mul]
    have hstep := b.step_pos
    refine Or.inl ⟨?_, ?_⟩
    · rw [Binary.low, hmagnitude]
      split <;> linarith
    · rw [Binary.high, hmagnitude]
      linarith
  next hne =>
    obtain ⟨c, power, hshortest, hnear⟩ := Shortest.numeral_nearest hb hne
    rw [Binary.shortest, hshortest, Shortest.value_numeralOf]
    exact hnear

end EnglishScript
