import Mathlib
import EnglishScript.Run.Value
import EnglishScript.Proofs.ExactRounding
import EnglishScript.Proofs.NumberText

namespace EnglishScript

namespace Whole

open Float.Model UnpackedFloat

/-- The whole numbers of 64 bits. -/
def InRange (n : Int) : Prop :=
  Value.minInt ≤ n ∧ n < Nat.pow 2 63

instance (n : Int) : Decidable (InRange n) :=
  inferInstanceAs (Decidable (_ ∧ _))

/-- The whole numbers of 64 bits that are floating-point numbers as well. -/
structure Fits (n : Int) : Prop where
  range : InRange n
  short : Short n.natAbs

theorem InRange.natAbs_le {n : Int} (h : InRange n) : n.natAbs ≤ 2 ^ 63 := by
  obtain ⟨hlow, hhigh⟩ := h
  simp only [Value.minInt, Nat.pow_eq] at hlow hhigh
  omega

/-- The floating-point number is the whole number. -/
def Is (f : Float) (n : Int) : Prop :=
  Holds f.toModel.unpack n

section Operations

variable {f g : Float} {m n : Int} (hf : Is f m) (hg : Is g n)

include hf hg

theorem is_add (h : Fits (m + n)) : Is (f + g) (m + n) :=
  holds_unpack_pack (holds_add hf hg h.short) h.range.natAbs_le

theorem is_sub (h : Fits (m - n)) : Is (f - g) (m - n) := by
  have hsub : Is (f - g) (m + -n) := by
    refine holds_unpack_pack (u := UnpackedFloat.sub _ _ _) ?_ h.range.natAbs_le
    rw [sub_eq_add]
    exact holds_add hf (holds_neg hg) h.short
  exact hsub

theorem is_mul (h : Fits (m * n)) : Is (f * g) (m * n) :=
  holds_unpack_pack (holds_mul hf hg h.short) h.range.natAbs_le

end Operations

theorem is_neg {f : Float} {n : Int} (hf : Is f n) (h : n.natAbs ≤ 2 ^ 63) : Is f.neg (-n) :=
  holds_unpack_pack (holds_neg hf) (by rwa [Int.natAbs_neg])

theorem is_one : Is (Float.ofBits 0x3FF0000000000000) 1 := by
  have hunpack : (Float.ofBits 0x3FF0000000000000).toModel.unpack = .finite .positive (2 ^ 52) (-52) (by decide) := by
    rfl
  rw [Is, hunpack]
  refine ⟨Nat.le_refl _, by decide, ?_⟩
  norm_num [Sign.apply]

theorem is_toFloat {n : Nat} (h : Short n) (hn : n ≤ 2 ^ 63) : Is n.toUInt64.toFloat n := by
  have hword : n.toUInt64.toNat = n := Nat.mod_eq_of_lt (by omega)
  refine holds_unpack_pack (u := UnpackedFloat.ofUInt64 _ _) ?_ hn
  rw [UnpackedFloat.ofUInt64, hword]
  have hvalue : ((n : Int) : ℚ) * 2 ^ (0 : Int) = (n : Int) := by simp
  exact holds_normalize hvalue h _

theorem is_ofNat {n : Nat} (h : Short n) (hn : n ≤ 2 ^ 63) : Is (Float.ofNat n) n := by
  change Is (Float.ofScientific n false 0) n
  unfold Float.ofScientific
  split
  next =>
    have hproduct := holds_unpack_pack (n := (n : Int) * 1) (holds_mul (is_toFloat h hn) is_one (by simpa using h))
      (by simpa using hn)
    rw [Int.mul_one] at hproduct
    exact hproduct
  next =>
    refine holds_unpack_pack (u := UnpackedFloat.ofScientific .binary64 n 0) ?_ hn
    by_cases hzero : n = 0
    · subst hzero
      rfl
    · have hshift : UnpackedFloat.ofScientific .binary64 n 0 =
          roundWithAccuracy .binary64 .positive (n <<< 53 * 1) (-53 + 0) .exact := by
        unfold UnpackedFloat.ofScientific
        rw [dif_neg hzero, if_neg (by decide), if_neg (by simp), if_pos (by decide)]
        rfl
      have hvalue : ((n <<< 53 * 1 : Nat) : ℚ) * 2 ^ (-53 + 0 : Int) = n := by
        rw [Nat.shiftLeft_eq]
        push_cast
        norm_num
        field_simp
      have hlarge : 2 ^ 52 ≤ n <<< 53 * 1 := by
        rw [Nat.shiftLeft_eq]
        omega
      rw [hshift]
      generalize n <<< 53 * 1 = k at hvalue hlarge
      have hpositive : ((Sign.positive.apply k : Int) : ℚ) * 2 ^ (-53 + 0 : Int) = (n : Int) := hvalue
      exact holds_roundWithAccuracy hpositive h hlarge

theorem is_ofInt {n : Int} (h : Fits n) : Is (Float.ofInt n) n := by
  have hn := h.range.natAbs_le
  cases n with
  | ofNat n => exact is_ofNat h.short hn
  | negSucc n => exact is_neg (is_ofNat (n := n + 1) h.short hn) hn

theorem unpackMantissa_toNat (f : Float) :
    (@unpackMantissa Format.binary64 f.toModel.toBits.toBitVec).toNat = f.toBits.toNat % Nat.pow 2 52 := by
  have hbits : f.toBits = f.toModel.toBits := rfl
  simp [unpackMantissa, hbits]

theorem negative_iff (f : Float) : (f.toBits.toNat / Nat.pow 2 63 == 1) = true ↔
    Sign.ofBitVec (@unpackSign Format.binary64 f.toModel.toBits.toBitVec) = .negative := by
  have hsign := Reading.unpackSign_toNat f
  have hlt := (@unpackSign Format.binary64 f.toModel.toBits.toBitVec).isLt
  rw [beq_iff_eq, ← hsign, Sign.ofBitVec]
  split
  next hzero =>
    rw [hzero]
    simp
  next hne =>
    have hne' : (@unpackSign Format.binary64 f.toModel.toBits.toBitVec).toNat ≠ 0 := fun h =>
      hne (BitVec.eq_of_toNat_eq h)
    simp only [iff_true]
    omega

theorem ofFloat_finite {f : Float} {s : Sign} {m : Nat} {e : Int} {hm : 0 < m}
    (h : f.toModel.unpack = .finite s m e hm) :
    ∃ b, Reading.ofFloat f = .finite b ∧ (b.negative = true ↔ s = .negative) ∧ b.mantissa = m ∧ b.exponent = e := by
  have hexp := Reading.unpackExponent_toNat f
  have hfraction := unpackMantissa_toNat f
  have hnegative := negative_iff f
  unfold Float.Model.unpack UnpackedFloat.unpack at h
  dsimp only at h
  split at h
  next =>
    split at h <;> cases h
  next hones =>
    have hne : f.toBits.toNat / Nat.pow 2 52 % Nat.pow 2 11 ≠ Nat.pow 2 11 - 1 := by
      rw [← hexp]
      exact fun heq => hones (BitVec.eq_of_toNat_eq heq)
    unfold Reading.ofFloat
    simp only [if_neg hne]
    split at h
    next hzero =>
      rw [if_pos (by rw [← hexp, hzero]; rfl)]
      split at h
      next => cases h
      next =>
        injection h with hs hm he
        refine ⟨_, rfl, by rw [hnegative, hs], by rw [← hm, hfraction], ?_⟩
        rw [← he, hzero]
        rfl
    next hnonzero =>
      rw [if_neg (by rw [← hexp]; exact fun heq => hnonzero (BitVec.eq_of_toNat_eq heq))]
      injection h with hs hm he
      refine ⟨_, rfl, by rw [hnegative, hs], ?_, ?_⟩
      · rw [← hm, BitVec.toNat_append, ← Nat.shiftLeft_add_eq_or_of_lt (BitVec.isLt _), hfraction]
        rfl
      · rw [← he, hexp]
        rfl

theorem ofFloat_zero {f : Float} {s : Sign} (h : f.toModel.unpack = .zero s) :
    ∃ b, Reading.ofFloat f = .finite b ∧ b.mantissa = 0 := by
  have hexp := Reading.unpackExponent_toNat f
  have hfraction := unpackMantissa_toNat f
  unfold Float.Model.unpack UnpackedFloat.unpack at h
  dsimp only at h
  split at h
  next =>
    split at h <;> cases h
  next =>
    split at h
    next hzero =>
      split at h
      next hmantissa =>
        unfold Reading.ofFloat
        rw [hzero] at hexp
        rw [hmantissa] at hfraction
        simp only [← hexp, ← hfraction]
        exact ⟨_, rfl, rfl⟩
      next => cases h
    next => cases h

theorem nearestInt_zero {b : Binary} (h : b.mantissa = 0) : b.nearestInt = 0 := by
  have hdown : 0 < b.scaleDown := Nat.two_pow_pos _
  have hmagnitude : (2 * b.mantissa * b.scaleUp + b.scaleDown) / (2 * b.scaleDown) = 0 := by
    rw [h]
    exact Nat.div_eq_of_lt (by omega)
  simp only [Binary.nearestInt, hmagnitude]
  split <;> rfl

/-- Rounding to the nearest whole number keeps a value that is whole. -/
theorem nearestInt_scaled {b : Binary} {n : Nat} (h : (b.mantissa : ℚ) * 2 ^ b.exponent = n) :
    b.nearestInt = if b.negative then -(n : Int) else n := by
  have hdown : 0 < b.scaleDown := Nat.two_pow_pos _
  have hscaled : b.mantissa * b.scaleUp = n * b.scaleDown := by
    have hpow : (2 : ℚ) ^ b.exponent * b.scaleDown = b.scaleUp := by
      rw [Binary.scaleUp, Binary.scaleDown, Nat.pow_eq, Nat.pow_eq, Nat.cast_pow, Nat.cast_pow, Nat.cast_two,
        ← zpow_natCast, ← zpow_natCast, ← zpow_add₀ two_ne_zero]
      congr 1
      omega
    have hcast : ((b.mantissa * b.scaleUp : Nat) : ℚ) = (n * b.scaleDown : Nat) := by
      rw [Nat.cast_mul, Nat.cast_mul, ← hpow, ← mul_assoc, h]
    exact_mod_cast hcast
  have hmagnitude : (2 * b.mantissa * b.scaleUp + b.scaleDown) / (2 * b.scaleDown) = n := by
    rw [Nat.mul_assoc, hscaled, show 2 * (n * b.scaleDown) + b.scaleDown = b.scaleDown + 2 * b.scaleDown * n by ring,
      Nat.add_mul_div_left _ _ (by omega), Nat.div_eq_of_lt (by omega), Nat.zero_add]
  rw [Binary.nearestInt, hmagnitude]

theorem Is.wholeOf {f : Float} {n : Int} (h : Is f n) (hn : InRange n) : Value.wholeOf f = n := by
  have hread : ∃ b, Reading.ofFloat f = .finite b ∧ b.nearestInt = n := by
    unfold Is at h
    cases hu : f.toModel.unpack with
    | infinity | notANumber =>
      rw [hu] at h
      exact h.elim
    | zero s =>
      rw [hu] at h
      cases h
      obtain ⟨b, hb, hzero⟩ := ofFloat_zero hu
      exact ⟨b, hb, nearestInt_zero hzero⟩
    | finite s m e hm =>
      rw [hu] at h
      obtain ⟨b, hb, hnegative, rfl, rfl⟩ := ofFloat_finite hu
      refine ⟨b, hb, ?_⟩
      have hsign := apply_natAbs h.2.2
      rw [nearestInt_scaled (scaled_natAbs h.2.2)]
      cases s with
      | negative => rwa [if_pos (hnegative.mpr rfl)]
      | positive => rwa [if_neg (fun hb => by cases hnegative.mp hb)]
  obtain ⟨b, hb, hnearest⟩ := hread
  have hboth : (decide (Value.minInt ≤ n) && decide (n < Nat.pow 2 63)) = true := by
    rw [decide_eq_true hn.1, decide_eq_true hn.2]
    rfl
  simp only [Value.wholeOf, hb, hnearest, hboth, ↓reduceIte]

theorem mantissa_lt {f : Float} {b : Binary} (h : Reading.ofFloat f = .finite b) : b.mantissa < 2 ^ 53 := by
  have hlt : f.toBits.toNat % Nat.pow 2 52 < 2 ^ 52 := Nat.mod_lt _ (Nat.two_pow_pos 52)
  unfold Reading.ofFloat at h
  dsimp only at h
  split at h
  next => split at h <;> cases h
  next =>
    split at h
    next =>
      cases h
      exact Nat.lt_trans hlt (by decide)
    next =>
      cases h
      simp only [Nat.pow_eq] at hlt ⊢
      omega

theorem short_nearestInt {b : Binary} (h : b.mantissa < 2 ^ 53) : Short b.nearestInt.natAbs := by
  have hnatAbs : b.nearestInt.natAbs = (2 * b.mantissa * b.scaleUp + b.scaleDown) / (2 * b.scaleDown) := by
    simp only [Binary.nearestInt]
    split <;> simp only [Int.natAbs_neg, Int.natAbs_natCast]
  rw [hnatAbs]
  by_cases hexp : 0 ≤ b.exponent
  · -- nothing is cut off: the value is whole
    have hdown : b.scaleDown = 1 := by
      rw [Binary.scaleDown, show (-b.exponent).toNat = 0 by omega, Nat.pow_eq, Nat.pow_zero]
    refine ⟨b.mantissa, b.exponent.toNat, h, ?_⟩
    rw [hdown, Binary.scaleUp, Nat.pow_eq, Nat.mul_assoc]
    omega
  · have hup : b.scaleUp = 1 := by rw [Binary.scaleUp, show b.exponent.toNat = 0 by omega, Nat.pow_eq, Nat.pow_zero]
    have hdown : 0 < b.scaleDown := Nat.two_pow_pos _
    refine short_of_lt ((Nat.div_lt_iff_lt_mul (by omega)).mpr ?_)
    rw [hup]
    omega

/-- Whatever is rounded to a whole number, the result is a floating-point number. -/
theorem fits_wholeOf (f : Float) : Fits (Value.wholeOf f) := by
  have hmin : Fits Value.minInt := ⟨by decide, 1, 63, by decide, rfl⟩
  unfold Value.wholeOf
  split
  next b hb =>
    split
    next hrange =>
      rw [Bool.and_eq_true, decide_eq_true_eq, decide_eq_true_eq] at hrange
      exact ⟨hrange, short_nearestInt (mantissa_lt hb)⟩
    next => exact hmin
  next => exact hmin

theorem scaled_lt {a b : Nat} {e f : Int} (ha : a < 2 ^ 53) (hb : 2 ^ 52 ≤ b) (h : e < f) :
    (a : ℚ) * 2 ^ e < b * 2 ^ f := by
  have hpow : (2 : ℚ) ^ (1 : Int) * 2 ^ e ≤ 2 ^ f := by
    rw [← zpow_add₀ two_ne_zero]
    exact zpow_le_zpow_right₀ one_le_two (by omega)
  have hb' : ((2 : ℚ) ^ 52) ≤ b := by exact_mod_cast hb
  have ha' : (a : ℚ) < 2 ^ 53 := by exact_mod_cast ha
  calc (a : ℚ) * 2 ^ e < 2 ^ 53 * 2 ^ e := by gcongr
    _ = 2 ^ 52 * (2 ^ (1 : Int) * 2 ^ e) := by norm_num; ring
    _ ≤ b * 2 ^ f := by gcongr

theorem compare_mul {a b p q : Nat} {e : Int} (hp : (a : ℚ) * 2 ^ e = p) (hq : (b : ℚ) * 2 ^ e = q) :
    compare a b = compare p q := by
  have hpos : (0 : ℚ) < 2 ^ e := by positivity
  have hlt {a b p q : Nat} (hp : (a : ℚ) * 2 ^ e = p) (hq : (b : ℚ) * 2 ^ e = q) (h : a < b) : p < q := by
    have hcast : (p : ℚ) < q := by
      rw [← hp, ← hq]
      gcongr
    exact_mod_cast hcast
  rcases Nat.lt_trichotomy a b with h | rfl | h
  · rw [Nat.compare_eq_lt.mpr h, Nat.compare_eq_lt.mpr (hlt hp hq h)]
  · rw [hp] at hq
    rw [Nat.compare_eq_eq.mpr rfl, Nat.compare_eq_eq.mpr (by exact_mod_cast hq)]
  · rw [Nat.compare_eq_gt.mpr h, Nat.compare_eq_gt.mpr (hlt hq hp h)]

/-- Numbers with full mantissas are ordered by their exponents first. -/
theorem compare_scaled {a b p q : Nat} {e f : Int} (ha : 2 ^ 52 ≤ a ∧ a < 2 ^ 53) (hb : 2 ^ 52 ≤ b ∧ b < 2 ^ 53)
    (hp : (a : ℚ) * 2 ^ e = p) (hq : (b : ℚ) * 2 ^ f = q) : (compare e f).then (compare a b) = compare p q := by
  rcases Int.lt_trichotomy e f with hlt | rfl | hgt
  · have hpq : (p : ℚ) < q := hp ▸ hq ▸ scaled_lt ha.2 hb.1 hlt
    have hcompare : compare p q = .lt := Nat.compare_eq_lt.mpr (by exact_mod_cast hpq)
    rw [Int.compare_eq_lt.mpr hlt, hcompare]
    rfl
  · rw [Int.compare_eq_eq.mpr rfl]
    exact compare_mul hp hq
  · have hpq : (q : ℚ) < p := hp ▸ hq ▸ scaled_lt hb.2 ha.1 hgt
    have hcompare : compare p q = .gt := Nat.compare_eq_gt.mpr (by exact_mod_cast hpq)
    rw [Int.compare_eq_gt.mpr hgt, hcompare]
    rfl

theorem compare_natAbs {m n : Int} (hm : 0 ≤ m) (hn : 0 ≤ n) : compare m.natAbs n.natAbs = compare m n := by
  rcases Int.lt_trichotomy m n with h | rfl | h
  · rw [Int.compare_eq_lt.mpr h, Nat.compare_eq_lt]
    omega
  · rw [Int.compare_eq_eq.mpr rfl, Nat.compare_eq_eq]
  · rw [Int.compare_eq_gt.mpr h, Nat.compare_eq_gt]
    omega

theorem compare_natAbs_swap {m n : Int} (hm : m ≤ 0) (hn : n ≤ 0) :
    (compare m.natAbs n.natAbs).swap = compare m n := by
  rw [← Int.natAbs_neg m, ← Int.natAbs_neg n, compare_natAbs (by omega) (by omega)]
  rcases Int.lt_trichotomy m n with h | rfl | h
  · rw [Int.compare_eq_lt.mpr h, Int.compare_eq_gt.mpr (by omega)]
    rfl
  · rw [Int.compare_eq_eq.mpr rfl, Int.compare_eq_eq.mpr rfl]
    rfl
  · rw [Int.compare_eq_gt.mpr h, Int.compare_eq_lt.mpr (by omega)]
    rfl

theorem Holds.ne_zero {s : Sign} {a : Nat} {e n : Int} {ha : 0 < a} (h : Holds (.finite s a e ha) n) : n ≠ 0 := by
  have hpos := one_le_of_scaled (scaled_natAbs h.2.2) ha
  omega

theorem Holds.neg_of_negative {a : Nat} {e n : Int} {ha : 0 < a} (h : Holds (.finite .negative a e ha) n) : n < 0 := by
  have hsign : -(n.natAbs : Int) = n := apply_natAbs h.2.2
  have hne := h.ne_zero
  omega

theorem Holds.pos_of_positive {a : Nat} {e n : Int} {ha : 0 < a} (h : Holds (.finite .positive a e ha) n) : 0 < n := by
  have hsign : (n.natAbs : Int) = n := apply_natAbs h.2.2
  have hne := h.ne_zero
  omega

theorem Holds.compare {u v : UnpackedFloat} {m n : Int} (hu : Holds u m) (hv : Holds v n) :
    UnpackedFloat.compare u v = some (compare m n) := by
  cases u with
  | infinity | notANumber => exact hu.elim
  | zero s =>
    cases hu
    cases v with
    | infinity | notANumber => exact hv.elim
    | zero t =>
      cases hv
      rfl
    | finite t b f hb =>
      cases t with
      | negative => rw [Int.compare_eq_gt.mpr hv.neg_of_negative]; rfl
      | positive => rw [Int.compare_eq_lt.mpr hv.pos_of_positive]; rfl
  | finite s a e ha =>
    cases v with
    | infinity | notANumber => exact hv.elim
    | zero t =>
      cases hv
      cases s with
      | negative => rw [Int.compare_eq_lt.mpr hu.neg_of_negative]; rfl
      | positive => rw [Int.compare_eq_gt.mpr hu.pos_of_positive]; rfl
    | finite t b f hb =>
      have hcompare := compare_scaled ⟨hu.1, hu.2.1⟩ ⟨hv.1, hv.2.1⟩ (scaled_natAbs hu.2.2) (scaled_natAbs hv.2.2)
      cases s with
      | negative =>
        have hm := hu.neg_of_negative
        cases t with
        | negative =>
          have hn := hv.neg_of_negative
          simp only [UnpackedFloat.compare, hcompare, compare_natAbs_swap (Int.le_of_lt hm) (Int.le_of_lt hn)]
        | positive => rw [Int.compare_eq_lt.mpr (Int.lt_trans hm hv.pos_of_positive)]; rfl
      | positive =>
        have hm := hu.pos_of_positive
        cases t with
        | negative => rw [Int.compare_eq_gt.mpr (Int.lt_trans hv.neg_of_negative hm)]; rfl
        | positive =>
          have hn := hv.pos_of_positive
          simp only [UnpackedFloat.compare, hcompare, compare_natAbs (Int.le_of_lt hm) (Int.le_of_lt hn)]

theorem Is.lt_iff {f g : Float} {m n : Int} (hf : Is f m) (hg : Is g n) : f < g ↔ m < n := by
  have hlt : f < g ↔ (UnpackedFloat.compare f.toModel.unpack g.toModel.unpack == some .lt) = true := by
    change decide _ = true ↔ _
    rw [decide_eq_true_iff]
    rfl
  rw [hlt, Holds.compare hf hg, ← Int.compare_eq_lt]
  simp

theorem Is.beq_eq {f g : Float} {m n : Int} (hf : Is f m) (hg : Is g n) : (f == g) = (m == n) := by
  have hbeq : (f == g) = (UnpackedFloat.compare f.toModel.unpack g.toModel.unpack == some .eq) := rfl
  rw [hbeq, Holds.compare hf hg, Bool.eq_iff_iff, beq_iff_eq, beq_iff_eq, Option.some_inj, Int.compare_eq_eq]

end Whole

end EnglishScript
