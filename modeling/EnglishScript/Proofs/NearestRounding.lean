import EnglishScript.Proofs.ShortestDecimal

namespace EnglishScript

namespace Rounding

open Float.Model UnpackedFloat

/-- A number that was cut down to a mantissa: the round bit says whether the rest is a half or more, the sticky bit
whether it is something else than nothing or a half. -/
structure Cut (em : ExtendedMantissa) (y : ℚ) : Prop where
  low : em.mantissa ≤ y
  high : y < em.mantissa + 1
  round : em.roundBit = true ↔ em.mantissa + 1 / 2 ≤ y
  sticky : em.stickyBit = false ↔ y = em.mantissa ∨ y = em.mantissa + 1 / 2

/-- The rest is the half that the round bit stands for and something less than a half. -/
theorem cut_rest (q : Nat) {r : ℚ} (hlow : 0 ≤ r) (hhigh : r < 1 / 2) (round : Bool) {sticky : Bool}
    (hsticky : sticky = false ↔ r = 0) : Cut ⟨q, round, sticky⟩ (q + (if round then 1 / 2 else 0) + r) := by
  cases round with
  | false =>
    rw [if_neg Bool.false_ne_true, add_zero]
    refine ⟨by linarith, by linarith, ?_, ?_⟩
    · simp only [Bool.false_eq_true, false_iff, not_le]
      linarith
    · rw [hsticky]
      constructor
      · rintro rfl
        exact Or.inl (add_zero _)
      · rintro (hwhole | hhalf) <;> linarith
  | true =>
    rw [if_pos rfl]
    refine ⟨by linarith, by linarith, ?_, ?_⟩
    · simp only [true_iff]
      linarith
    · rw [hsticky]
      constructor
      · rintro rfl
        exact Or.inr (add_zero _)
      · rintro (hwhole | hhalf) <;> linarith

theorem cut_exact (m : Nat) : Cut ⟨m, false, false⟩ m := by
  simpa using cut_rest m le_rfl one_half_pos false (iff_of_true rfl rfl)

variable {em : ExtendedMantissa} {y : ℚ}

theorem Cut.whole_iff (h : Cut em y) : (em.roundBit || em.stickyBit) = false ↔ y = em.mantissa := by
  have hround := h.round
  have hsticky := h.sticky
  rw [Bool.or_eq_false_iff, hsticky, ← Bool.not_eq_true, hround]
  constructor
  · rintro ⟨hlow, hwhole | hhalf⟩
    · exact hwhole
    · exact absurd hhalf.ge hlow
  · intro hwhole
    exact ⟨by rw [hwhole]; linarith, Or.inl hwhole⟩

theorem Cut.shiftRightOne (h : Cut em y) : Cut em.shiftRightOne (y / 2) := by
  have hlow := h.low
  have hhigh := h.high
  have hsticky : em.shiftRightOne.stickyBit = false ↔ (y - em.mantissa) / 2 = 0 := by
    rw [div_eq_zero_iff, or_iff_left two_ne_zero, sub_eq_zero]
    exact h.whole_iff
  -- the last bit of the mantissa becomes the round bit
  have hvalue : y / 2 =
      (em.mantissa / 2 : Nat) + (if em.shiftRightOne.roundBit then 1 / 2 else 0) + (y - em.mantissa) / 2 := by
    have hsplit : (em.mantissa : ℚ) = 2 * (em.mantissa / 2 : Nat) + (em.mantissa % 2 : Nat) := by
      exact_mod_cast (Nat.div_add_mod em.mantissa 2).symm
    rcases Nat.mod_two_eq_zero_or_one em.mantissa with hbit | hbit
    · rw [if_neg (by simp [ExtendedMantissa.shiftRightOne, hbit])]
      rw [hbit, Nat.cast_zero] at hsplit
      linarith
    · rw [if_pos (by simp [ExtendedMantissa.shiftRightOne, hbit])]
      rw [hbit, Nat.cast_one] at hsplit
      linarith
  rw [hvalue]
  exact cut_rest _ (by linarith) (by linarith) _ hsticky

theorem Cut.shiftRight (h : Cut em y) (k : Nat) : Cut (em >>> k) (y / 2 ^ k) := by
  induction k with
  | zero => simpa [HShiftRight.hShiftRight, Nat.repeat] using h
  | succ k ih =>
    have hstep := ih.shiftRightOne
    rw [div_div, ← pow_succ] at hstep
    exact hstep

theorem roundedMantissa_eq (em : ExtendedMantissa) : em.roundedMantissa =
    if em.roundBit then (if em.stickyBit then em.mantissa + 1 else em.mantissa + em.mantissa % 2) else em.mantissa := by
  obtain ⟨m, round, sticky⟩ := em
  cases round <;> cases sticky <;> rfl

/-- The rounded mantissa is the nearest whole number, the even one in the middle between two. -/
theorem Cut.rounded (h : Cut em y) :
    ((em.roundedMantissa : ℚ) - 1 / 2 < y ∧ y < em.roundedMantissa + 1 / 2) ∨
      (em.roundedMantissa % 2 = 0 ∧ (y = em.roundedMantissa - 1 / 2 ∨ y = em.roundedMantissa + 1 / 2)) := by
  have hlow := h.low
  have hhigh := h.high
  rw [roundedMantissa_eq]
  cases hround : em.roundBit with
  | false =>
    have hbelow : ¬(em.mantissa : ℚ) + 1 / 2 ≤ y := fun hle => by simp [h.round.mpr hle] at hround
    exact Or.inl ⟨by simp only [Bool.false_eq_true, ↓reduceIte]; linarith, not_le.mp hbelow⟩
  | true =>
    have hmiddle := h.round.mp hround
    cases hsticky : em.stickyBit with
    | true =>
      have hother : ¬(y = em.mantissa ∨ y = em.mantissa + 1 / 2) := fun heq => by simp [h.sticky.mpr heq] at hsticky
      have habove : (em.mantissa : ℚ) + 1 / 2 < y := lt_of_le_of_ne hmiddle fun heq => hother (Or.inr heq.symm)
      refine Or.inl ?_
      simp only [↓reduceIte, Nat.cast_add, Nat.cast_one]
      constructor <;> linarith
    | false =>
      have hhalf : y = em.mantissa + 1 / 2 := by
        rcases h.sticky.mp hsticky with hwhole | hhalf
        · linarith
        · exact hhalf
      refine Or.inr ⟨by simp only [Bool.false_eq_true, ↓reduceIte]; omega, ?_⟩
      simp only [Bool.false_eq_true, ↓reduceIte, Nat.cast_add]
      rcases Nat.mod_two_eq_zero_or_one em.mantissa with hbit | hbit <;> rw [hbit]
      · exact Or.inr (by rw [hhalf, Nat.cast_zero, add_zero])
      · exact Or.inl (by rw [hhalf, Nat.cast_one]; ring)

/-- The number without a minus sign, as the format has it. -/
def unpacked (b : Binary) : UnpackedFloat :=
  if h : b.mantissa = 0 then .zero .positive else .finite .positive b.mantissa b.exponent (Nat.pos_of_ne_zero h)

theorem mantissa_shiftRight (em : ExtendedMantissa) (k : Nat) : (em >>> k).mantissa = em.mantissa / 2 ^ k := by
  induction k with
  | zero => simp [HShiftRight.hShiftRight, Nat.repeat]
  | succ k ih =>
    change (em >>> k).mantissa / 2 = _
    rw [ih, Nat.div_div_eq_div_mul, Nat.pow_succ]

theorem shiftToTarget_small {m : Nat} {e : Int} (hm : m < 2 ^ 53) (he : -1074 ≤ e) :
    shiftToTargetExponent .binary64 m e .exact = (⟨m, false, false⟩, e) := by
  have hlog : m.log2 ≤ 52 := by
    by_cases hzero : m = 0
    · simp [hzero]
    · have := (Nat.log2_lt hzero).mpr hm
      omega
  have hshift : (Format.binary64.targetExponent (totalExponent m e) - e).toNat = 0 := by
    simp only [Format.targetExponent, totalExponent, Format.mantissaBits, Format.minExponent]
    omega
  simp [shiftToTargetExponent, shiftToExponent, hshift, ExtendedMantissa.ofMantissaAndAccuracy,
    HShiftRight.hShiftRight, Nat.repeat]

theorem shiftToTarget_full {e : Int} (he : -1074 ≤ e) :
    shiftToTargetExponent .binary64 (2 ^ 53) e .exact = (⟨2 ^ 52, false, false⟩, e + 1) := by
  have hlog : (2 ^ 53).log2 = 53 := Nat.log2_two_pow
  have hshift := Whole.shiftToTarget_exact (m := 2 ^ 53) (e := e) ⟨1, 53, by decide, by decide⟩ (by omega)
  rw [hlog] at hshift
  exact hshift

/-- The first shift leaves a mantissa that fits, all its digits in use unless the exponent is the least one. -/
theorem first_shift {m : Nat} {e : Int} (hm : 52 ≤ m.log2 ∨ e ≤ -1074) (acc : Accuracy) {x : ℚ}
    (hcut : Cut (.ofMantissaAndAccuracy m acc) (x / 2 ^ e)) :
    ∃ em t, shiftToTargetExponent .binary64 m e acc = (em, t) ∧ Cut em (x / 2 ^ t) ∧ -1074 ≤ t ∧
      em.mantissa < 2 ^ 53 ∧ (t ≠ -1074 → 2 ^ 52 ≤ em.mantissa) := by
  have htarget : Format.binary64.targetExponent (totalExponent m e) = max (m.log2 + e - 52) (-1074) := by
    simp only [Format.targetExponent, totalExponent, Format.mantissaBits, Format.minExponent]
    omega
  obtain ⟨k, hk⟩ : ∃ k : Nat, max (m.log2 + e - 52) (-1074) = e + k := ⟨(max (m.log2 + e - 52) (-1074) - e).toNat, by omega⟩
  have hmantissa : (ExtendedMantissa.ofMantissaAndAccuracy m acc >>> k).mantissa = m / 2 ^ k := by
    rw [mantissa_shiftRight]
    rcases acc with _ | order
    · rfl
    · cases order <;> rfl
  refine ⟨ExtendedMantissa.ofMantissaAndAccuracy m acc >>> k, e + k, ?_, ?_, by omega, ?_, fun hleast => ?_⟩
  · rw [shiftToTargetExponent, shiftToExponent, htarget, hk, show (e + k - e).toNat = k by omega]
  · have hshifted := hcut.shiftRight k
    rwa [div_div, ← zpow_natCast, ← zpow_add₀ two_ne_zero] at hshifted
  · rw [hmantissa]
    apply Nat.div_lt_of_lt_mul
    calc m < 2 ^ (m.log2 + 1) := Nat.lt_log2_self
      _ ≤ 2 ^ (k + 53) := Nat.pow_le_pow_right (by decide) (by omega)
      _ = 2 ^ k * 2 ^ 53 := Nat.pow_add _ _ _
  · rw [hmantissa, Nat.le_div_iff_mul_le (Nat.two_pow_pos k), ← Nat.pow_add]
    have hlog : 52 + k = m.log2 := by omega
    have hne : m ≠ 0 := by
      rintro rfl
      simp at hlog
    rw [hlog]
    exact Nat.log2_self_le hne

/-- A number is nearest to the one whose mantissa is nearest, where the mantissa below it is as far away as that above. -/
theorem nearest_of_rounded {b : Binary} {x : ℚ}
    (hnear : ((b.mantissa : ℚ) - 1 / 2 < x / 2 ^ b.exponent ∧ x / 2 ^ b.exponent < b.mantissa + 1 / 2) ∨
      (b.mantissa % 2 = 0 ∧
        (x / 2 ^ b.exponent = b.mantissa - 1 / 2 ∨ x / 2 ^ b.exponent = b.mantissa + 1 / 2)))
    (hboundary : b.boundary = true → b.mantissa ≤ x / 2 ^ b.exponent) : b.Nearest x := by
  have hstep := b.step_pos
  simp only [lt_div_iff₀ hstep, div_lt_iff₀ hstep, le_div_iff₀ hstep, div_eq_iff hstep.ne'] at hnear hboundary
  unfold Binary.Nearest
  rw [Binary.high_eq]
  cases hbound : b.boundary with
  | true =>
    have hle := hboundary hbound
    have hlow : ((b.mantissa : ℚ) - 1 / 4) * 2 ^ b.exponent < x := by linarith
    rw [Binary.low_of_boundary hbound]
    rcases hnear with ⟨_, hlt⟩ | ⟨heven, hmiddle | hmiddle⟩
    · exact Or.inl ⟨hlow, hlt⟩
    · linarith
    · exact Or.inr ⟨heven, Or.inr hmiddle⟩
  | false =>
    rw [Binary.low_of_inner hbound]
    exact hnear

theorem roundWithAccuracy_eq {m : Nat} {e t : Int} {acc : Accuracy} {em : ExtendedMantissa}
    (hfirst : shiftToTargetExponent .binary64 m e acc = (em, t)) (b : Binary)
    (hsecond : shiftToTargetExponent .binary64 em.roundedMantissa t .exact = (⟨b.mantissa, false, false⟩, b.exponent)) :
    roundWithAccuracy .binary64 .positive m e acc = unpacked b := by
  simp only [roundWithAccuracy, hfirst, hsecond, unpacked]

/-- Rounding gives the nearest number of the format. -/
theorem roundWithAccuracy_nearest {m : Nat} {e : Int} (hm : 52 ≤ m.log2 ∨ e ≤ -1074) (acc : Accuracy) {x : ℚ}
    (hcut : Cut (.ofMantissaAndAccuracy m acc) (x / 2 ^ e)) :
    ∃ b : Binary, b.Canonical ∧ b.negative = false ∧ b.Nearest x ∧
      roundWithAccuracy .binary64 .positive m e acc = unpacked b := by
  obtain ⟨em, t, hfirst, hem, hleast, hfits, hfull⟩ := first_shift hm acc hcut
  have hlow := hem.low
  have hhigh := hem.high
  have hnear := hem.rounded
  have hle : em.mantissa ≤ em.roundedMantissa ∧ em.roundedMantissa ≤ em.mantissa + 1 := by
    rw [roundedMantissa_eq]
    split
    · split <;> omega
    · omega
  have hround := roundWithAccuracy_eq hfirst
  generalize em.roundedMantissa = r at hnear hle hround
  by_cases hcarry : r = 2 ^ 53
  · -- the mantissa has become too long by rounding up, so it is the least one of the next exponent
    subst hcarry
    have hstep : (0 : ℚ) < 2 ^ t := by positivity
    have hlast : (em.mantissa : ℚ) + 1 = 2 ^ 53 := by exact_mod_cast (show em.mantissa + 1 = 2 ^ 53 by omega)
    refine ⟨⟨false, 2 ^ 52, t + 1, true⟩, ⟨show 2 ^ 52 < 2 ^ 53 by decide, by simp only; omega, fun _ => le_rfl, ?_⟩, rfl, ?_,
      hround _ (shiftToTarget_full hleast)⟩
    · simp only [true_iff, true_and]
      omega
    · have hlow' : Binary.low ⟨false, 2 ^ 52, t + 1, true⟩ = (2 ^ 53 - 1 / 2) * 2 ^ t := by
        rw [Binary.low_of_boundary rfl, zpow_add_one₀ two_ne_zero]
        norm_num
        ring
      have hhigh' : x < Binary.high ⟨false, 2 ^ 52, t + 1, true⟩ := by
        rw [Binary.high_eq, zpow_add_one₀ two_ne_zero]
        rw [hlast, div_lt_iff₀ hstep] at hhigh
        norm_num
        linarith
      unfold Binary.Nearest
      rw [hlow']
      rcases hnear with ⟨habove, _⟩ | ⟨_, hmiddle | hmiddle⟩
      · rw [lt_div_iff₀ hstep] at habove
        exact Or.inl ⟨by exact_mod_cast habove, hhigh'⟩
      · rw [div_eq_iff hstep.ne'] at hmiddle
        exact Or.inr ⟨show 2 ^ 52 % 2 = 0 by decide, Or.inl (by exact_mod_cast hmiddle)⟩
      · rw [hlast] at hhigh
        push_cast at hmiddle
        linarith
  · have hsmall : r < 2 ^ 53 := by omega
    refine ⟨⟨false, r, t, decide (r = 2 ^ 52 ∧ t ≠ -1074)⟩, ⟨hsmall, hleast, fun h => ?_, decide_eq_true_iff⟩, rfl, ?_,
      hround _ (shiftToTarget_small hsmall hleast)⟩
    · exact (hfull h).trans hle.1
    · refine nearest_of_rounded hnear fun hbound => ?_
      have hmin := of_decide_eq_true hbound
      have hr : r = em.mantissa := by
        have := hfull hmin.2
        omega
      rw [hr]
      exact hlow

theorem unpack_pack_small (s : Sign) {m : Nat} {e : Int} (hm : 0 < m) (hlt : m < 2 ^ 52) (he : e = -1074) :
    (Float.Model.pack (.finite s m e hm)).unpack = .finite s m e hm := by
  have hlog : m.log2 < 52 := (Nat.log2_lt hm.ne').mpr hlt
  have hpack : UnpackedFloat.pack .binary64 (.finite s m e hm) =
      packComponents .binary64 s 0#11 (BitVec.ofNat _ m) := by
    refine (if_neg ?_).trans (if_neg ?_)
    · change ¬2048 ≤ (e + 1023 + 52).toNat + 1
      omega
    · change ¬m.log2 + 1 = 53
      omega
  have hmantissa : (BitVec.ofNat 52 m).toNat = m := by
    rw [BitVec.toNat_ofNat, Nat.mod_eq_of_lt hlt]
  have hne : BitVec.ofNat 52 m ≠ 0#52 := by
    intro hzero
    have hnat := congrArg BitVec.toNat hzero
    rw [hmantissa] at hnat
    exact hm.ne' hnat
  change UnpackedFloat.unpack .binary64 (UnpackedFloat.pack .binary64 (.finite s m e hm)) = _
  rw [hpack]
  unfold UnpackedFloat.unpack
  simp only [unpackExponent_packComponents, unpackMantissa_packComponents, unpackSign_packComponents,
    Sign.ofBitVec_toBitVec, ↓reduceIte]
  rw [if_neg (by decide), dif_neg hne]
  simp only [hmantissa, he]
  rfl

theorem unpack_pack_unpacked {b : Binary} (hb : b.Canonical) (hexp : b.exponent ≤ 971) :
    (Float.Model.pack (unpacked b)).unpack = unpacked b := by
  unfold unpacked
  split
  next => rfl
  next hne =>
    have hpos := Nat.pos_of_ne_zero hne
    by_cases hfull : 2 ^ 52 ≤ b.mantissa
    · exact Whole.unpack_pack_full .positive hpos hfull hb.fits hb.least hexp
    · have hleast : b.exponent = -1074 := by
        by_contra h
        exact hfull (hb.full h)
      exact unpack_pack_small .positive hpos (not_le.mp hfull) hleast

theorem exponent_le {f : Float} {b : Binary} (h : Reading.ofFloat f = .finite b) : b.exponent ≤ 971 := by
  have hmod : f.toBits.toNat / Nat.pow 2 52 % Nat.pow 2 11 < Nat.pow 2 11 := Nat.mod_lt _ (by decide)
  unfold Reading.ofFloat at h
  dsimp only at h
  split at h
  next => split at h <;> cases h
  next hones =>
    split at h
    next =>
      cases h
      change (-1074 : Int) ≤ 971
      decide
    next =>
      cases h
      simp only [Nat.pow_eq] at hones hmod ⊢
      omega

/-- A number without a minus sign is the packed form of its reading. -/
theorem pack_unpacked {f : Float} {b : Binary} (h : Reading.ofFloat f = .finite b) (hpos : b.negative = false) :
    (⟨Float.Model.pack (unpacked b)⟩ : Float) = f := by
  have hb := Reading.canonical h
  refine Reading.ofFloat_inj (b := b) ?_ h
  have hunpack := unpack_pack_unpacked hb (exponent_le h)
  by_cases hzero : b.mantissa = 0
  · have hread : Reading.ofFloat (⟨Float.Model.pack (.zero .positive)⟩ : Float) = .finite ⟨false, 0, -1074, false⟩ := by rfl
    rw [unpacked, dif_pos hzero, hread]
    refine congrArg Reading.finite (Binary.Canonical.eq (Reading.canonical hread) hb hpos.symm ?_)
    simp [Binary.magnitude, hzero]
  · rw [unpacked, dif_neg hzero] at hunpack ⊢
    obtain ⟨c, hread, hsign, hmantissa, hexponent⟩ :=
      Whole.ofFloat_finite (f := ⟨Float.Model.pack (.finite .positive _ _ (Nat.pos_of_ne_zero hzero))⟩) hunpack
    rw [hread]
    refine congrArg Reading.finite (Binary.Canonical.eq (Reading.canonical hread) hb ?_ ?_)
    · rw [hpos, ← Bool.not_eq_true, hsign]
      rintro ⟨⟩
    · rw [Binary.magnitude, hmantissa, hexponent, Binary.magnitude]

theorem unpack_eq {f : Float} {b : Binary} (h : Reading.ofFloat f = .finite b) (hpos : b.negative = false) :
    f.toModel.unpack = unpacked b := by
  have hunpack := unpack_pack_unpacked (Reading.canonical h) (exponent_le h)
  rw [← pack_unpacked h hpos]
  exact hunpack

theorem cut_fraction (k : Nat) {n : Nat} (hn : 0 < n) :
    Cut (.ofMantissaAndAccuracy (k / n) (accuracyOfFraction (k % n) n)) (k / n) := by
  have hn' : (0 : ℚ) < n := by exact_mod_cast hn
  obtain ⟨r, hr⟩ : ∃ r, r = k % n := ⟨_, rfl⟩
  have hrest : r < n := hr ▸ Nat.mod_lt k hn
  have hsplit : (k : ℚ) / n = (k / n : Nat) + r / n := by
    have hdiv : (k : ℚ) = n * (k / n : Nat) + r := by
      rw [hr]
      exact_mod_cast (Nat.div_add_mod k n).symm
    nth_rewrite 1 [hdiv]
    rw [add_div, mul_div_cancel_left₀ _ hn'.ne']
  have hsmall : (r : ℚ) / n < 1 := by
    rw [div_lt_one hn']
    exact_mod_cast hrest
  rw [← hr, hsplit]
  generalize k / n = q
  unfold accuracyOfFraction
  split
  next hzero =>
    rw [hzero, Nat.cast_zero, zero_div, add_zero]
    exact cut_exact q
  next hne =>
    have hpos : 0 < (r : ℚ) / n := div_pos (by exact_mod_cast Nat.pos_of_ne_zero hne) hn'
    rcases lt_trichotomy (2 * r) n with hlt | heq | hgt
    · have hhalf : (r : ℚ) / n < 1 / 2 := by
        rw [div_lt_div_iff₀ hn' two_pos]
        exact_mod_cast (by omega : r * 2 < 1 * n)
      rw [Nat.compare_eq_lt.mpr hlt]
      have hcut := cut_rest q hpos.le hhalf false (iff_of_false Bool.false_ne_true.symm hpos.ne')
      rw [if_neg Bool.false_ne_true, add_zero] at hcut
      exact hcut
    · have hhalf : (r : ℚ) / n = 1 / 2 := by
        rw [div_eq_div_iff hn'.ne' two_ne_zero]
        exact_mod_cast (by omega : r * 2 = 1 * n)
      rw [Nat.compare_eq_eq.mpr heq, hhalf]
      have hcut := cut_rest q le_rfl one_half_pos true (iff_of_true rfl rfl)
      rw [if_pos rfl, add_zero] at hcut
      exact hcut
    · have hhalf : 1 / 2 < (r : ℚ) / n := by
        rw [div_lt_div_iff₀ two_pos hn']
        exact_mod_cast (by omega : 1 * n < r * 2)
      rw [Nat.compare_eq_gt.mpr hgt]
      have hover : 0 < (r : ℚ) / n - 1 / 2 := sub_pos.mpr hhalf
      have hcut := cut_rest q hover.le (by linarith) true (iff_of_false Bool.false_ne_true.symm hover.ne')
      rw [if_pos rfl, add_assoc, add_sub_cancel] at hcut
      exact hcut

section Arithmetic

variable {f : Float} {b : Binary} (hread : Reading.ofFloat f = .finite b) (hpos : b.negative = false)
include hread hpos

/-- Rounding a number gives the floating-point number that it is nearest to. -/
theorem pack_roundWithAccuracy {m : Nat} {e : Int} (hm : 52 ≤ m.log2 ∨ e ≤ -1074) {acc : Accuracy} {x : ℚ}
    (hcut : Cut (.ofMantissaAndAccuracy m acc) (x / 2 ^ e)) (hnear : b.Nearest x) :
    (⟨Float.Model.pack (roundWithAccuracy .binary64 .positive m e acc)⟩ : Float) = f := by
  obtain ⟨c, hc, hsign, hnearest, hround⟩ := roundWithAccuracy_nearest hm acc hcut
  rw [hround, hnearest.unique hc (Reading.canonical hread) (hsign.trans hpos.symm) hnear]
  exact pack_unpacked hread hpos

theorem pack_mul {m n : Nat} {d e : Int} (hm : 0 < m) (hn : 0 < n) (hlarge : 2 ^ 52 ≤ m * n)
    (hnear : b.Nearest (m * 2 ^ d * (n * 2 ^ e))) :
    (⟨Float.Model.pack (mul .binary64 (.finite .positive m d hm) (.finite .positive n e hn))⟩ : Float) = f := by
  refine pack_roundWithAccuracy hread hpos (x := m * 2 ^ d * (n * 2 ^ e)) (Or.inl ?_) ?_ hnear
  · exact (Nat.le_log2 (Nat.mul_pos hm hn).ne').mpr hlarge
  · have hvalue : (m : ℚ) * 2 ^ d * (n * 2 ^ e) / 2 ^ (d + e) = (m * n : Nat) := by
      rw [zpow_add₀ two_ne_zero]
      push_cast
      field_simp
    rw [hvalue]
    exact cut_exact _

theorem pack_div {m n : Nat} {d e : Int} (hm : 0 < m) (hn : 0 < n)
    (hnear : b.Nearest (m * 2 ^ d / (n * 2 ^ e))) :
    (⟨Float.Model.pack (div .binary64 (.finite .positive m d hm) (.finite .positive n e hn))⟩ : Float) = f := by
  obtain ⟨t, ht⟩ : ∃ t, t = min (d - e) (Format.binary64.targetExponent (totalExponent m d - totalExponent n e)) := ⟨_, rfl⟩
  obtain ⟨k, hk⟩ : ∃ k : Nat, d - e = t + k := ⟨(d - e - t).toNat, by omega⟩
  have hcore : divCore .binary64 m d n e = ((m <<< k) / n, t, accuracyOfFraction ((m <<< k) % n) n) := by
    unfold divCore
    dsimp only
    rw [← ht, show (d - e - t).toNat = k by omega]
  change (⟨Float.Model.pack (roundWithAccuracy .binary64 .positive (divCore .binary64 m d n e).1
    (divCore .binary64 m d n e).2.1 (divCore .binary64 m d n e).2.2)⟩ : Float) = f
  rw [hcore]
  refine pack_roundWithAccuracy hread hpos (x := m * 2 ^ d / (n * 2 ^ e)) ?_ ?_ hnear
  · -- the quotient has all its digits, since the dividend was given enough of them
    by_cases hleast : t ≤ -1074
    · exact Or.inr hleast
    · have hshift : n.log2 + 53 ≤ m.log2 + k := by
        simp only [Format.targetExponent, totalExponent, Format.mantissaBits, Format.minExponent] at ht
        omega
      have hlarge : 2 ^ 52 ≤ m <<< k / n := by
        rw [Nat.le_div_iff_mul_le hn, Nat.shiftLeft_eq]
        calc 2 ^ 52 * n ≤ 2 ^ 52 * 2 ^ (n.log2 + 1) := Nat.mul_le_mul_left _ Nat.lt_log2_self.le
          _ = 2 ^ (n.log2 + 53) := by rw [← Nat.pow_add]; congr 1; omega
          _ ≤ 2 ^ (m.log2 + k) := Nat.pow_le_pow_right two_pos hshift
          _ = 2 ^ m.log2 * 2 ^ k := Nat.pow_add _ _ _
          _ ≤ m * 2 ^ k := Nat.mul_le_mul_right _ (Nat.log2_self_le hm.ne')
      exact Or.inl ((Nat.le_log2 (by omega)).mpr hlarge)
  · have hvalue : (m : ℚ) * 2 ^ d / (n * 2 ^ e) / 2 ^ t = (m <<< k : Nat) / n := by
      have hd : d = e + t + k := by omega
      rw [Nat.shiftLeft_eq, hd, zpow_add₀ two_ne_zero, zpow_add₀ two_ne_zero, zpow_natCast]
      push_cast
      field_simp
    rw [hvalue]
    exact cut_fraction (m <<< k) hn

end Arithmetic

theorem magnitude_pos {b : Binary} (h : b.mantissa ≠ 0) : 0 < b.magnitude :=
  mul_pos (by exact_mod_cast Nat.pos_of_ne_zero h) b.step_pos

/-- Exponents are compared before mantissas, which is right as only the least exponent has short mantissas. -/
theorem compare_scaled {a b : Binary} (ha : a.Canonical) (hb : b.Canonical) :
    (compare a.exponent b.exponent).then (compare a.mantissa b.mantissa) = cmp a.magnitude b.magnitude := by
  rcases lt_trichotomy a.exponent b.exponent with hlt | heq | hgt
  · have hmag : a.magnitude < b.magnitude := Whole.scaled_lt ha.fits (hb.full (by have := ha.least; omega)) hlt
    rw [Int.compare_eq_lt.mpr hlt, (cmp_eq_lt_iff _ _).mpr hmag]
    rfl
  · rw [Int.compare_eq_eq.mpr heq, Binary.magnitude, Binary.magnitude, heq, cmp_mul_pos_right b.step_pos,
      Nat.strictMono_cast.cmp_map_eq, cmp_eq_compare]
    rfl
  · have hmag : b.magnitude < a.magnitude := Whole.scaled_lt hb.fits (ha.full (by have := hb.least; omega)) hgt
    rw [Int.compare_eq_gt.mpr hgt, (cmp_eq_gt_iff _ _).mpr hmag]
    rfl

theorem compare_unpacked {a b : Binary} (ha : a.Canonical) (hb : b.Canonical) :
    UnpackedFloat.compare (unpacked a) (unpacked b) = some (cmp a.magnitude b.magnitude) := by
  have hzero {c : Binary} (h : c.mantissa = 0) : c.magnitude = 0 := by rw [Binary.magnitude, h, Nat.cast_zero, zero_mul]
  unfold unpacked
  split
  next ha0 =>
    rw [hzero ha0]
    split
    next hb0 =>
      rw [hzero hb0, cmp_self_eq_eq]
      rfl
    next hb0 =>
      rw [(cmp_eq_lt_iff _ _).mpr (magnitude_pos hb0)]
      rfl
  next ha0 =>
    split
    next hb0 =>
      rw [hzero hb0, (cmp_eq_gt_iff _ _).mpr (magnitude_pos ha0)]
      rfl
    next hb0 => exact congrArg some (compare_scaled ha hb)

section Comparison

variable {f g : Float} {a b : Binary} (hf : Reading.ofFloat f = .finite a) (ha : a.negative = false)
  (hg : Reading.ofFloat g = .finite b) (hb : b.negative = false)
include hf ha hg hb

theorem compare_eq : UnpackedFloat.compare f.toModel.unpack g.toModel.unpack = some (cmp a.magnitude b.magnitude) := by
  rw [unpack_eq hf ha, unpack_eq hg hb, compare_unpacked (Reading.canonical hf) (Reading.canonical hg)]

theorem lt_iff : f < g ↔ a.magnitude < b.magnitude := by
  have hlt : f < g ↔ (UnpackedFloat.compare f.toModel.unpack g.toModel.unpack == some .lt) = true := by
    change decide _ = true ↔ _
    rw [decide_eq_true_iff]
    rfl
  rw [hlt, compare_eq hf ha hg hb, ← cmp_eq_lt_iff]
  simp

theorem le_iff : f ≤ g ↔ a.magnitude ≤ b.magnitude := by
  have hle : f ≤ g ↔ Option.any (fun x => x.isLE) (UnpackedFloat.compare f.toModel.unpack g.toModel.unpack) = true := by
    change decide _ = true ↔ _
    rw [decide_eq_true_iff]
    rfl
  rw [hle, compare_eq hf ha hg hb, ← not_lt, ← cmp_eq_gt_iff, Option.any_some]
  cases cmp a.magnitude b.magnitude <;> decide

theorem beq_iff : (f == g) = true ↔ a.magnitude = b.magnitude := by
  have hbeq : (f == g) = (UnpackedFloat.compare f.toModel.unpack g.toModel.unpack == some .eq) := rfl
  rw [hbeq, compare_eq hf ha hg hb, beq_iff_eq, Option.some_inj, cmp_eq_eq_iff]

end Comparison

end Rounding

end EnglishScript
