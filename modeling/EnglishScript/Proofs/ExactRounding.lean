import Mathlib

namespace EnglishScript

namespace Whole

/-- At most 53 binary digits from the first to the last that is not zero. -/
def Short (m : Nat) : Prop :=
  ∃ a d : Nat, a < 2 ^ 53 ∧ m = a * 2 ^ d

theorem short_of_lt {m : Nat} (h : m < 2 ^ 53) : Short m :=
  ⟨m, 0, h, by simp⟩

theorem Short.dvd {m : Nat} (h : Short m) : 2 ^ (m.log2 - 52) ∣ m := by
  obtain ⟨a, d, ha, rfl⟩ := h
  by_cases hzero : a * 2 ^ d = 0
  · simp [hzero]
  · have hlt : a * 2 ^ d < 2 ^ (53 + d) := by
      rw [Nat.pow_add]
      exact Nat.mul_lt_mul_of_pos_right ha (Nat.two_pow_pos d)
    have hlog := (Nat.log2_lt hzero).mpr hlt
    have hd : (a * 2 ^ d).log2 - 52 ≤ d := by omega
    exact (Nat.pow_dvd_pow 2 hd).mul_left a

theorem div_log_lt (m : Nat) : m / 2 ^ (m.log2 - 52) < 2 ^ 53 := by
  apply Nat.div_lt_of_lt_mul
  calc m < 2 ^ (m.log2 + 1) := Nat.lt_log2_self
    _ ≤ 2 ^ (m.log2 - 52 + 53) := Nat.pow_le_pow_right (by decide) (by omega)
    _ = 2 ^ (m.log2 - 52) * 2 ^ 53 := Nat.pow_add _ _ _

theorem short_iff_dvd {m : Nat} : Short m ↔ 2 ^ (m.log2 - 52) ∣ m :=
  ⟨Short.dvd, fun h => ⟨m / 2 ^ (m.log2 - 52), m.log2 - 52, div_log_lt m, (Nat.div_mul_cancel h).symm⟩⟩

instance (m : Nat) : Decidable (Short m) :=
  decidable_of_iff _ short_iff_dvd.symm

/-- The digits do not depend on where the point is. -/
theorem short_of_scaled {m n : Nat} {e : Int} (h : (m : ℚ) * 2 ^ e = n) (hn : Short n) : Short m := by
  obtain ⟨a, d, ha, rfl⟩ := hn
  have hm : (m : ℚ) = a * 2 ^ ((d : Int) - e) := by
    rw [zpow_sub₀ two_ne_zero, zpow_natCast, ← mul_div_assoc, eq_div_iff (by positivity), h]
    push_cast
    ring
  by_cases hd : e ≤ d
  · obtain ⟨k, hk⟩ := Int.le.dest hd
    refine ⟨a, k, ha, ?_⟩
    rw [show (d : Int) - e = k by omega, zpow_natCast] at hm
    exact_mod_cast hm
  · obtain ⟨k, hk⟩ := Int.le.dest (Int.le_of_lt (Int.not_le.mp hd))
    rw [show (d : Int) - e = -(k : Int) by omega, zpow_neg, zpow_natCast, ← div_eq_mul_inv,
      eq_div_iff (by positivity)] at hm
    have hle : m * 2 ^ k = a := by exact_mod_cast hm
    refine short_of_lt (Nat.lt_of_le_of_lt ?_ ha)
    rw [← hle]
    exact Nat.le_mul_of_pos_right m (Nat.two_pow_pos k)

open Float.Model UnpackedFloat

theorem shiftRight_exact {m k : Nat} (h : 2 ^ k ∣ m) :
    (⟨m, false, false⟩ : ExtendedMantissa) >>> k = ⟨m / 2 ^ k, false, false⟩ := by
  induction k with
  | zero => simp [HShiftRight.hShiftRight, Nat.repeat]
  | succ k ih =>
    obtain ⟨c, rfl⟩ := h
    have hshift := ih (Dvd.intro _ (by rw [Nat.pow_succ, Nat.mul_assoc]))
    change ExtendedMantissa.shiftRightOne ((ExtendedMantissa.mk (2 ^ (k + 1) * c) false false) >>> k) = _
    rw [hshift]
    have hdiv : 2 ^ (k + 1) * c / 2 ^ k = 2 * c := by
      rw [Nat.pow_succ, Nat.mul_assoc, Nat.mul_div_cancel_left _ (Nat.two_pow_pos k)]
    simp [ExtendedMantissa.shiftRightOne, hdiv]

theorem shiftToTarget_exact {m : Nat} {e : Int} (hm : Short m) (he : -1022 ≤ m.log2 + e) :
    shiftToTargetExponent .binary64 m e .exact =
      (⟨m / 2 ^ (m.log2 - 52), false, false⟩, e + ((m.log2 - 52 : Nat) : Int)) := by
  have htarget : (Format.binary64.targetExponent (totalExponent m e) - e).toNat = m.log2 - 52 := by
    simp only [Format.targetExponent, totalExponent, Format.mantissaBits, Format.minExponent]
    omega
  simp only [shiftToTargetExponent, shiftToExponent, htarget, ExtendedMantissa.ofMantissaAndAccuracy,
    shiftRight_exact hm.dvd]

/-- A number with few enough digits is rounded to itself. -/
theorem roundWithAccuracy_exact {m : Nat} {e : Int} (hm : Short m) (hpos : 0 < m) (he : -1022 ≤ m.log2 + e)
    (s : Sign) :
    ∃ m' e' h, roundWithAccuracy .binary64 s m e .exact = .finite s m' e' h ∧ m' < 2 ^ 53 ∧
      (52 ≤ m.log2 → 2 ^ 52 ≤ m') ∧ (m' : ℚ) * 2 ^ e' = m * 2 ^ e := by
  have hlog : (m / 2 ^ (m.log2 - 52)).log2 = m.log2 - (m.log2 - 52) := by
    rw [Nat.log2_eq_log_two, Nat.log2_eq_log_two, Nat.log_div_base_pow]
  have hlt := div_log_lt m
  have hle : 2 ^ (m.log2 - (m.log2 - 52)) ≤ m / 2 ^ (m.log2 - 52) := by
    rw [Nat.le_div_iff_mul_le (Nat.two_pow_pos _), ← Nat.pow_add, Nat.sub_add_cancel (Nat.sub_le _ _)]
    exact Nat.log2_self_le (by omega)
  have hpos' : m / 2 ^ (m.log2 - 52) ≠ 0 := by
    have := Nat.two_pow_pos (m.log2 - (m.log2 - 52))
    omega
  refine ⟨m / 2 ^ (m.log2 - 52), e + ((m.log2 - 52 : Nat) : Int), Nat.pos_of_ne_zero hpos', ?_, hlt, fun h => ?_,
    ?_⟩
  · have hsecond := shiftToTarget_exact (short_of_lt hlt) (e := e + ((m.log2 - 52 : Nat) : Int)) (by omega)
    rw [hlog, show m.log2 - (m.log2 - 52) - 52 = 0 by omega] at hsecond
    simp only [Nat.pow_zero, Nat.div_one] at hsecond
    simp only [roundWithAccuracy, shiftToTarget_exact hm he, ExtendedMantissa.roundedMantissa,
      ExtendedMantissa.accuracy, Accuracy.roundToNearestEven, hsecond, hpos', ↓reduceDIte]
    simp
  · rwa [show m.log2 - (m.log2 - 52) = 52 by omega] at hle
  · rw [zpow_add₀ two_ne_zero, zpow_natCast]
    have hdiv : (((m / 2 ^ (m.log2 - 52) : Nat)) : ℚ) * 2 ^ (m.log2 - 52) = m := by
      exact_mod_cast Nat.div_mul_cancel hm.dvd
    rw [← hdiv]
    ring

theorem log2_shiftLeft {m k : Nat} (hm : 0 < m) : (m <<< k).log2 = m.log2 + k := by
  have hle := Nat.mul_le_mul_right (2 ^ k) (Nat.log2_self_le (Nat.ne_of_gt hm))
  have hlt := Nat.mul_lt_mul_of_pos_right (Nat.lt_log2_self (n := m)) (Nat.two_pow_pos k)
  rw [← Nat.pow_add] at hle hlt
  have hpos := Nat.mul_pos hm (Nat.two_pow_pos k)
  rw [Nat.shiftLeft_eq, Nat.log2_eq_iff (Nat.ne_of_gt hpos)]
  exact ⟨hle, by rwa [show m.log2 + k + 1 = m.log2 + 1 + k by omega]⟩

theorem round_exact {m : Nat} {e : Int} (hm : Short m) (hpos : 0 < m) (he : -1022 ≤ m.log2 + e) (s : Sign) :
    ∃ m' e' h, UnpackedFloat.round .binary64 s m e = .finite s m' e' h ∧ 2 ^ 52 ≤ m' ∧ m' < 2 ^ 53 ∧
      (m' : ℚ) * 2 ^ e' = m * 2 ^ e := by
  have htarget : (e - Format.binary64.targetExponent (totalExponent m e)).toNat = 52 - m.log2 := by
    simp only [Format.targetExponent, totalExponent, Format.mantissaBits, Format.minExponent]
    omega
  have hlog := log2_shiftLeft (k := 52 - m.log2) hpos
  have hshort : Short (m <<< (52 - m.log2)) := by
    obtain ⟨a, d, ha, rfl⟩ := hm
    exact ⟨a, d + (52 - (a * 2 ^ d).log2), ha, by rw [Nat.shiftLeft_eq, Nat.mul_assoc, ← Nat.pow_add]⟩
  have hpos' : 0 < m <<< (52 - m.log2) := by
    rw [Nat.shiftLeft_eq]
    exact Nat.mul_pos hpos (Nat.two_pow_pos _)
  obtain ⟨m', e', h, hround, hlt, hle, hvalue⟩ :=
    roundWithAccuracy_exact (e := e - ((52 - m.log2 : Nat) : Int)) hshort hpos' (by omega) s
  refine ⟨m', e', h, ?_, hle (by omega), hlt, ?_⟩
  · simp only [UnpackedFloat.round, decreaseExponent, htarget]
    exact hround
  · rw [hvalue, Nat.shiftLeft_eq, zpow_sub₀ two_ne_zero, zpow_natCast]
    push_cast
    field_simp

/-- The unpacked number is the whole number, with all 53 digits of its mantissa in use. -/
def Holds : UnpackedFloat → Int → Prop
  | .zero _, n => n = 0
  | .finite s m e _, n => 2 ^ 52 ≤ m ∧ m < 2 ^ 53 ∧ (s.apply m : ℚ) * 2 ^ e = n
  | _, _ => False

theorem one_le_of_scaled {m n : Nat} {e : Int} (h : (m : ℚ) * 2 ^ e = n) (hm : 0 < m) : 1 ≤ n := by
  have hpos : (0 : ℚ) < n := by
    rw [← h]
    positivity
  exact_mod_cast hpos

theorem log2_of_scaled {m n : Nat} {e : Int} (h : (m : ℚ) * 2 ^ e = n) (hm : 0 < m) : 0 ≤ m.log2 + e := by
  have hone : (1 : ℚ) ≤ n := by exact_mod_cast one_le_of_scaled h hm
  have hlt : (m : ℚ) < 2 ^ ((m.log2 : Int) + 1) := by exact_mod_cast (Nat.lt_log2_self : m < 2 ^ (m.log2 + 1))
  have hpow : (1 : ℚ) < 2 ^ ((m.log2 : Int) + 1 + e) := by
    rw [zpow_add₀ two_ne_zero]
    calc (1 : ℚ) ≤ m * 2 ^ e := by rw [h]; exact hone
      _ < 2 ^ ((m.log2 : Int) + 1) * 2 ^ e := by gcongr
  by_contra hneg
  have hle : (2 : ℚ) ^ ((m.log2 : Int) + 1 + e) ≤ 2 ^ (0 : Int) := zpow_le_zpow_right₀ one_le_two (by omega)
  rw [zpow_zero] at hle
  linarith

theorem apply_mul (s t : Sign) (a b : Nat) : (s * t).apply ((a * b : Nat) : Int) = s.apply a * t.apply b := by
  cases s <;> cases t <;> rw [Int.natCast_mul]
  · exact (Int.neg_mul_neg _ _).symm
  · exact (Int.neg_mul _ _).symm
  · exact (Int.mul_neg _ _).symm
  · rfl

theorem apply_scaled (s : Sign) (m : Nat) (q : ℚ) :
    ((s.apply m : Int) : ℚ) * q = (s.apply 1 : Int) * ((m : ℚ) * q) := by
  cases s <;> simp [Sign.apply]

theorem scaled_natAbs {s : Sign} {m : Nat} {n e : Int} (h : ((s.apply m : Int) : ℚ) * 2 ^ e = n) :
    (m : ℚ) * 2 ^ e = n.natAbs := by
  have habs := congrArg (fun q : ℚ => |q|) h
  rw [abs_mul, abs_of_pos (show (0 : ℚ) < 2 ^ e by positivity)] at habs
  rw [Nat.cast_natAbs, Int.cast_abs, ← habs]
  cases s <;> simp [Sign.apply]

theorem apply_natAbs {s : Sign} {m : Nat} {n e : Int} (h : ((s.apply m : Int) : ℚ) * 2 ^ e = n) :
    s.apply n.natAbs = n := by
  have hcast : ((s.apply n.natAbs : Int) : ℚ) = n := by
    rw [← mul_one ((s.apply n.natAbs : Int) : ℚ), apply_scaled, mul_one, ← scaled_natAbs h, ← apply_scaled, h]
  exact_mod_cast hcast

theorem holds_round {s : Sign} {m : Nat} {n e : Int} (h : ((s.apply m : Int) : ℚ) * 2 ^ e = n) (hn : Short n.natAbs)
    (hm : 0 < m) : Holds (UnpackedFloat.round .binary64 s m e) n := by
  have hscaled := scaled_natAbs h
  have hlog : -1022 ≤ m.log2 + e := Int.le_trans (by decide) (log2_of_scaled hscaled hm)
  obtain ⟨m', e', hpos, hround, hle, hlt, hvalue⟩ := round_exact (short_of_scaled hscaled hn) hm hlog s
  rw [hround]
  refine ⟨hle, hlt, ?_⟩
  rw [apply_scaled, hvalue, ← apply_scaled, h]

theorem holds_roundWithAccuracy {s : Sign} {m : Nat} {n e : Int} (h : ((s.apply m : Int) : ℚ) * 2 ^ e = n)
    (hn : Short n.natAbs) (hm : 2 ^ 52 ≤ m) : Holds (roundWithAccuracy .binary64 s m e .exact) n := by
  have hscaled := scaled_natAbs h
  have hpos : 0 < m := Nat.lt_of_lt_of_le (Nat.two_pow_pos 52) hm
  have hlog : -1022 ≤ m.log2 + e := Int.le_trans (by decide) (log2_of_scaled hscaled hpos)
  obtain ⟨m', e', hpos', hround, hlt, hle, hvalue⟩ :=
    roundWithAccuracy_exact (short_of_scaled hscaled hn) hpos hlog s
  rw [hround]
  refine ⟨hle ((Nat.le_log2 (Nat.ne_of_gt hpos)).mpr hm), hlt, ?_⟩
  rw [apply_scaled, hvalue, ← apply_scaled, h]

theorem holds_normalize {k n e : Int} (h : (k : ℚ) * 2 ^ e = n) (hn : Short n.natAbs) (s : Sign) :
    Holds (UnpackedFloat.normalize .binary64 k e s) n := by
  unfold UnpackedFloat.normalize
  split
  next hlt =>
    rw [Int.compare_eq_lt] at hlt
    have hk : Sign.negative.apply (-k).toNat = k := by
      simp only [Sign.apply]
      omega
    exact holds_round (by rw [hk, h]) hn (by omega)
  next heq =>
    rw [Int.compare_eq_eq] at heq
    rw [heq, Int.cast_zero, zero_mul] at h
    exact_mod_cast h.symm
  next hgt =>
    rw [Int.compare_eq_gt] at hgt
    have hk : Sign.positive.apply k.toNat = k := by
      simp only [Sign.apply]
      omega
    exact holds_round (by rw [hk, h]) hn (by omega)

theorem aligned (s : Sign) (m : Nat) {e t : Int} (ht : t ≤ e) :
    ((s.apply ((m <<< (e - t).toNat : Nat) : Int) : Int) : ℚ) * 2 ^ t = (s.apply m : Int) * 2 ^ e := by
  obtain ⟨k, hk⟩ := Int.le.dest ht
  have hshift : (e - t).toNat = k := by omega
  have hscale : ((m <<< k : Nat) : ℚ) * 2 ^ t = m * 2 ^ e := by
    rw [Nat.shiftLeft_eq, ← hk, zpow_add₀ two_ne_zero, zpow_natCast]
    push_cast
    ring
  cases s <;> simp only [Sign.apply, hshift, Int.cast_neg, Int.cast_natCast, neg_mul, hscale]

theorem holds_add {u v : UnpackedFloat} {m n : Int} (hu : Holds u m) (hv : Holds v n) (h : Short (m + n).natAbs) :
    Holds (UnpackedFloat.add .binary64 u v) (m + n) := by
  cases u with
  | infinity | notANumber => exact hu.elim
  | zero s =>
    cases hu
    rw [Int.zero_add]
    cases v with
    | infinity | notANumber => exact hv.elim
    | zero t =>
      rw [UnpackedFloat.add]
      split <;> exact hv
    | finite => exact hv
  | finite s a e ha =>
    cases v with
    | infinity | notANumber => exact hv.elim
    | zero t =>
      cases hv
      rw [Int.add_zero]
      exact hu
    | finite t b f hb =>
      refine holds_normalize ?_ h _
      have hleft := aligned s a (Int.min_le_left e f)
      have hright := aligned t b (Int.min_le_right e f)
      rw [Int.cast_add, add_mul, hleft, hright, hu.2.2, hv.2.2, Int.cast_add]

theorem sub_eq_add (spec : Format) (u v : UnpackedFloat) :
    UnpackedFloat.sub spec u v = UnpackedFloat.add spec u v.neg := by
  have happly (t : Sign) (b : Int) : (-t).apply b = -t.apply b := by
    cases t
    · exact (Int.neg_neg b).symm
    · rfl
  cases u <;> cases v <;> try rfl
  simp only [UnpackedFloat.sub, UnpackedFloat.add, UnpackedFloat.neg, happly, Int.sub_eq_add_neg]

theorem holds_neg {u : UnpackedFloat} {n : Int} (h : Holds u n) : Holds u.neg (-n) := by
  cases u with
  | infinity | notANumber => exact h.elim
  | zero s =>
    cases h
    rfl
  | finite s m e hm =>
    obtain ⟨hle, hlt, hvalue⟩ := h
    refine ⟨hle, hlt, ?_⟩
    rw [Int.cast_neg, ← hvalue]
    cases s
    · change ((m : Int) : ℚ) * 2 ^ e = -(((-(m : Int) : Int) : ℚ) * 2 ^ e)
      push_cast
      ring
    · change ((-(m : Int) : Int) : ℚ) * 2 ^ e = -(((m : Int) : ℚ) * 2 ^ e)
      push_cast
      ring

theorem holds_mul {u v : UnpackedFloat} {m n : Int} (hu : Holds u m) (hv : Holds v n) (h : Short (m * n).natAbs) :
    Holds (UnpackedFloat.mul .binary64 u v) (m * n) := by
  cases u with
  | infinity | notANumber => exact hu.elim
  | zero s =>
    cases hu
    rw [Int.zero_mul]
    cases v with
    | infinity | notANumber => exact hv.elim
    | _ => rfl
  | finite s a e ha =>
    cases v with
    | infinity | notANumber => exact hv.elim
    | zero t =>
      cases hv
      rw [Int.mul_zero]
      rfl
    | finite t b f hb =>
      obtain ⟨hale, _, hm⟩ := hu
      obtain ⟨_, _, hn⟩ := hv
      have hvalue : (((s * t).apply ((a * b : Nat) : Int) : Int) : ℚ) * 2 ^ (e + f) = (m * n : Int) := by
        rw [apply_mul, Int.cast_mul, Int.cast_mul, ← hm, ← hn, zpow_add₀ two_ne_zero]
        ring
      exact holds_roundWithAccuracy hvalue h (Nat.le_trans hale (Nat.le_mul_of_pos_right a hb))

theorem log2_full {m : Nat} (hle : 2 ^ 52 ≤ m) (hlt : m < 2 ^ 53) : m.log2 = 52 :=
  (Nat.log2_eq_iff (by omega)).mpr ⟨hle, hlt⟩

theorem exponent_bounds {m n : Nat} {e : Int} (h : (m : ℚ) * 2 ^ e = n) (hle : 2 ^ 52 ≤ m) (hlt : m < 2 ^ 53)
    (hn : n ≤ 2 ^ 63) : -52 ≤ e ∧ e ≤ 11 := by
  have hlog := log2_of_scaled h (by omega)
  rw [log2_full hle hlt] at hlog
  refine ⟨by omega, ?_⟩
  have hpow : (2 : ℚ) ^ (52 + e) ≤ 2 ^ (63 : Int) := by
    rw [zpow_add₀ two_ne_zero]
    calc (2 : ℚ) ^ (52 : Int) * 2 ^ e ≤ m * 2 ^ e := by
          gcongr
          exact_mod_cast hle
      _ = n := h
      _ ≤ 2 ^ (63 : Int) := by exact_mod_cast hn
  have hexp := (zpow_le_zpow_iff_right₀ one_lt_two).mp hpow
  omega

theorem unpack_pack_full (s : Sign) {m : Nat} {e : Int} (hm : 0 < m) (hle : 2 ^ 52 ≤ m) (hlt : m < 2 ^ 53)
    (hlow : -1074 ≤ e) (hhigh : e ≤ 971) : (Float.Model.pack (.finite s m e hm)).unpack = .finite s m e hm := by
  have hbiased : (e + 1023 + 52).toNat < 2 ^ 11 - 1 := by omega
  have hpack : UnpackedFloat.pack .binary64 (.finite s m e hm) =
      packComponents .binary64 s (BitVec.ofNat _ (e + 1023 + 52).toNat) (BitVec.ofNat _ m) := by
    simp only [UnpackedFloat.pack, Format.exponentBias, Format.mantissaBits, log2_full hle hlt]
    rw [if_neg (by simp; omega), if_pos trivial]
    rfl
  have hexp : (BitVec.ofNat 11 (e + 1023 + 52).toNat).toNat = (e + 1023 + 52).toNat := by
    rw [BitVec.toNat_ofNat, Nat.mod_eq_of_lt (by omega)]
  have hmantissa : (1#1 ++ BitVec.ofNat 52 m).toNat = m := by
    rw [BitVec.toNat_append, ← Nat.shiftLeft_add_eq_or_of_lt (BitVec.isLt _), BitVec.toNat_ofNat]
    change 1 <<< 52 + m % 2 ^ 52 = m
    omega
  change UnpackedFloat.unpack .binary64 (UnpackedFloat.pack .binary64 (.finite s m e hm)) = _
  rw [hpack]
  unfold UnpackedFloat.unpack
  simp only [unpackExponent_packComponents, unpackMantissa_packComponents, unpackSign_packComponents,
    Sign.ofBitVec_toBitVec]
  rw [if_neg, if_neg]
  · simp only [hexp, hmantissa, Format.exponentBias]
    congr 1
    omega
  · intro hzero
    have hnat := congrArg BitVec.toNat hzero
    rw [hexp] at hnat
    simp at hnat
    omega
  · intro hones
    have hnat := congrArg BitVec.toNat hones
    rw [hexp] at hnat
    simp at hnat
    omega

theorem holds_unpack_pack {u : UnpackedFloat} {n : Int} (h : Holds u n) (hn : n.natAbs ≤ 2 ^ 63) :
    Holds (Float.Model.pack u).unpack n := by
  cases u with
  | infinity | notANumber => exact h.elim
  | zero s =>
    cases s <;> exact h
  | finite s m e hm =>
    obtain ⟨hle, hlt, hvalue⟩ := h
    obtain ⟨hlow, hhigh⟩ := exponent_bounds (scaled_natAbs hvalue) hle hlt hn
    rw [unpack_pack_full s hm hle hlt (by omega) (by omega)]
    exact ⟨hle, hlt, hvalue⟩

end Whole

end EnglishScript
