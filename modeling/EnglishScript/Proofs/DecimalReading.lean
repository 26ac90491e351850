import EnglishScript.Proofs.NearestRounding
import EnglishScript.Proofs.NumberLayout

namespace EnglishScript

namespace Rounding

open Float.Model UnpackedFloat

theorem power_finite {k : Nat} {p : Float} (h : Float.exactlyRepresentablePowersOfTen.toList[k]? = some p) :
    ∃ n e hn, p.toModel.unpack = .finite .positive n e hn ∧ (n : ℚ) * 2 ^ e = 10 ^ k := by
  have hall : Float.exactlyRepresentablePowersOfTen.toList.zipIdx.all (fun (f, k) =>
    match f.toModel.unpack with
    | .finite .positive n e _ => n * 2 ^ e.toNat == 10 ^ k * 2 ^ (-e).toNat
    | _ => false) = true := by decide +kernel
  have hvalue := List.all_eq_true.mp hall (p, k) (List.mk_mem_zipIdx_iff_getElem?.mpr h)
  dsimp only at hvalue
  split at hvalue
  next n e hn heq =>
    refine ⟨n, e, hn, heq, ?_⟩
    have hnat : (n : ℚ) * 2 ^ e.toNat = 10 ^ k * 2 ^ (-e).toNat := by exact_mod_cast beq_iff_eq.mp hvalue
    have hpower : (2 : ℚ) ^ e = 2 ^ e.toNat / 2 ^ (-e).toNat := by
      rw [eq_div_iff (by positivity), ← zpow_natCast, ← zpow_natCast, ← zpow_add₀ two_ne_zero]
      congr 1
      omega
    rw [hpower, ← mul_div_assoc, hnat, mul_div_cancel_right₀ _ (by positivity)]
  next => cases hvalue

theorem power_of_neg {e : Int} (h : e < 0) : (10 : ℚ) ^ e = 1 / 10 ^ (-e).toNat := by
  rw [← zpow_natCast, Int.toNat_of_nonneg (by omega), zpow_neg, one_div, inv_inv]

theorem power_of_nonneg {e : Int} (h : 0 ≤ e) : (10 : ℚ) ^ e = 10 ^ e.toNat := by
  rw [← zpow_natCast, Int.toNat_of_nonneg h]

theorem whole_finite {m : Nat} (hm : m ≠ 0) (hlt : m < 2 ^ 53) :
    ∃ n e hn, m.toUInt64.toFloat.toModel.unpack = .finite .positive n e hn ∧ 2 ^ 52 ≤ n ∧ (n : ℚ) * 2 ^ e = m := by
  have hholds : Whole.Holds m.toUInt64.toFloat.toModel.unpack m := Whole.is_toFloat (Whole.short_of_lt hlt) (by omega)
  cases hunpack : m.toUInt64.toFloat.toModel.unpack with
  | infinity | notANumber => exact (hunpack ▸ hholds).elim
  | zero s =>
    rw [hunpack] at hholds
    exact absurd hholds (by simpa [Whole.Holds] using hm)
  | finite s n e hn =>
    rw [hunpack] at hholds
    cases s with
    | negative =>
      have := hholds.neg_of_negative
      omega
    | positive => exact ⟨n, e, hn, rfl, hholds.1, by simpa [Sign.apply] using hholds.2.2⟩

section Scientific

variable {f : Float} {b : Binary} (hread : Reading.ofFloat f = .finite b) (hpos : b.negative = false)
  {m : Nat} (hm : m ≠ 0) {e : Int} (hnear : b.Nearest (m * 10 ^ e))
include hread hpos hm hnear

theorem pack_ofScientific (hhigh : e ≤ 2 ^ 11) (hlow : -(2 ^ 11 + m.log2) ≤ e) :
    (⟨Float.Model.ofScientific m e⟩ : Float) = f := by
  change (⟨Float.Model.pack (UnpackedFloat.ofScientific .binary64 m e)⟩ : Float) = f
  unfold UnpackedFloat.ofScientific
  rw [dif_neg hm, if_neg (not_lt.mpr hhigh), if_neg (not_lt.mpr hlow)]
  split
  next hsign =>
    have hpow : 0 < 10 ^ e.toNat := Nat.pow_pos (by decide)
    refine pack_mul hread hpos _ _ ?_ ?_
    · change 2 ^ 52 ≤ m <<< 53 * 10 ^ e.toNat
      refine Nat.le_trans ?_ (Nat.le_mul_of_pos_right _ hpow)
      rw [Nat.shiftLeft_eq]
      omega
    · have hvalue : ((m <<< 53 : Nat) : ℚ) * 2 ^ (-(53 : Nat) : Int) * ((10 ^ e.toNat : Nat) * 2 ^ (0 : Int)) = m * 10 ^ e := by
        rw [Nat.shiftLeft_eq, power_of_nonneg hsign, zpow_neg, zpow_natCast]
        push_cast
        field_simp
        norm_num
      rwa [show Format.binary64.mantissaBits = 53 from rfl, hvalue]
  next hsign =>
    refine pack_div hread hpos _ _ ?_
    have hvalue : (m : ℚ) * 2 ^ (0 : Int) / ((10 ^ (-e).toNat : Nat) * 2 ^ (0 : Int)) = m * 10 ^ e := by
      rw [power_of_neg (not_le.mp hsign)]
      push_cast
      field_simp
    rwa [hvalue]

theorem ofScientific_eq (hhigh : e ≤ 2 ^ 11) (hlow : -(2 ^ 11 + m.log2) ≤ e) :
    Float.ofScientific m (e < 0) e.natAbs = f := by
  unfold Float.ofScientific
  split
  next hsmall =>
    have hindex : e.natAbs < Float.exactlyRepresentablePowersOfTen.size := Nat.lt_succ_of_le hsmall.2
    obtain ⟨n, d, hn, hwhole, hlarge, hvalue⟩ := whole_finite hm hsmall.1
    obtain ⟨p, c, hp, hpower, htens⟩ := power_finite (k := e.natAbs)
      (p := Float.exactlyRepresentablePowersOfTen[e.natAbs]) (by simp)
    dsimp only
    split
    next hsign =>
      have hneg : e < 0 := of_decide_eq_true hsign
      change (⟨Float.Model.pack (div .binary64 m.toUInt64.toFloat.toModel.unpack
        Float.exactlyRepresentablePowersOfTen[e.natAbs].toModel.unpack)⟩ : Float) = f
      rw [hwhole, hpower]
      refine pack_div hread hpos hn hp ?_
      rwa [hvalue, htens, div_eq_mul_one_div, show e.natAbs = (-e).toNat by omega, ← power_of_neg hneg]
    next hsign =>
      have hnonneg : 0 ≤ e := not_lt.mp fun h => hsign (decide_eq_true h)
      change (⟨Float.Model.pack (mul .binary64 m.toUInt64.toFloat.toModel.unpack
        Float.exactlyRepresentablePowersOfTen[e.natAbs].toModel.unpack)⟩ : Float) = f
      rw [hwhole, hpower]
      refine pack_mul hread hpos hn hp (hlarge.trans (Nat.le_mul_of_pos_right n hp)) ?_
      rwa [hvalue, htens, show e.natAbs = e.toNat by omega, ← power_of_nonneg hnonneg]
  next =>
    have hexp : (if decide (e < 0) = true then Int.negOfNat e.natAbs else Int.ofNat e.natAbs) = e := by
      rw [Int.negOfNat_eq]
      simp only [decide_eq_true_eq, Int.ofNat_eq_natCast]
      split <;> omega
    dsimp only
    rw [hexp]
    exact pack_ofScientific hread hpos hm hnear hhigh hlow

end Scientific

theorem le_of_nearest {b : Binary} (hb : b.Canonical) (hne : b.mantissa ≠ 0) {x : ℚ} (hnear : b.Nearest x) :
    (2 : ℚ) ^ (-1075 : Int) ≤ x :=
  calc (2 : ℚ) ^ (-1075 : Int) = 2 ^ (-1074 : Int) / 2 := by
        rw [show (-1075 : Int) = -1074 - 1 from rfl, zpow_sub_one₀ two_ne_zero, div_eq_mul_inv]
    _ ≤ 2 ^ b.exponent / 2 := by
        gcongr
        · exact one_le_two
        · exact hb.least
    _ ≤ b.low := Binary.half_step_le_low hne
    _ ≤ x := hnear.low_le.1

theorem nearest_le {b : Binary} (hb : b.Canonical) (hexp : b.exponent ≤ 971) {x : ℚ} (hnear : b.Nearest x) :
    x ≤ (2 : ℚ) ^ (1024 : Int) := by
  have hfits : (b.mantissa : ℚ) + 1 ≤ 2 ^ 53 := by exact_mod_cast hb.fits
  calc x ≤ b.high := hnear.le_high.1
    _ = (b.mantissa + 1 / 2) * 2 ^ b.exponent := b.high_eq
    _ ≤ 2 ^ 53 * 2 ^ b.exponent := mul_le_mul_of_nonneg_right (by linarith) b.step_pos.le
    _ ≤ 2 ^ 53 * 2 ^ (971 : Int) := by
        gcongr
        exact one_le_two
    _ = 2 ^ (1024 : Int) := by
        rw [← zpow_natCast, ← zpow_add₀ two_ne_zero]
        rfl

/-- A whole number is between the powers of ten before and behind its last digit's. -/
theorem decimal_bounds {m : Nat} (hm : m ≠ 0) (e : Int) :
    (10 : ℚ) ^ (Shortest.digitCount m + e - 1) ≤ m * 10 ^ e ∧ (m : ℚ) * 10 ^ e < 10 ^ (Shortest.digitCount m + e) := by
  have hten : (10 : ℚ) ≠ 0 := by norm_num
  have hpow : (0 : ℚ) < 10 ^ e := zpow_pos (by norm_num) e
  have hcount := Shortest.digitCount_pos m
  constructor
  · rw [show (Shortest.digitCount m + e - 1 : Int) = (Shortest.digitCount m - 1 : Nat) + e by omega, zpow_add₀ hten, zpow_natCast]
    exact mul_le_mul_of_nonneg_right (by exact_mod_cast Shortest.pow_digitCount_le (Nat.pos_of_ne_zero hm)) hpow.le
  · rw [zpow_add₀ hten, zpow_natCast]
    exact mul_lt_mul_of_pos_right (by exact_mod_cast Shortest.lt_pow_digitCount m) hpow

theorem digitCount_le_log2 {m : Nat} (hm : m ≠ 0) : Shortest.digitCount m ≤ m.log2 + 1 := by
  have hpow : 2 ^ (Shortest.digitCount m - 1) ≤ m :=
    (Nat.pow_le_pow_left (by decide) _).trans (Shortest.pow_digitCount_le (Nat.pos_of_ne_zero hm))
  have := (Nat.le_log2 hm).mpr hpow
  omega

theorem two_pow_le_ten_pow {j k : Nat} (h : j ≤ 3 * k) : (2 : ℚ) ^ j ≤ 10 ^ k :=
  calc (2 : ℚ) ^ j ≤ 2 ^ (3 * k) := pow_le_pow_right₀ one_le_two h
    _ = (2 ^ 3) ^ k := pow_mul _ _ _
    _ ≤ 10 ^ k := pow_le_pow_left₀ (by norm_num) (by norm_num) k

section Size

variable {b : Binary} (hb : b.Canonical) {m : Nat} (hm : m ≠ 0) {e : Int} (hnear : b.Nearest (m * 10 ^ e))
include hb hm hnear

/-- Decimals far below the range are nearest to zero. -/
theorem size_ge (hne : b.mantissa ≠ 0) : -400 ≤ (Shortest.digitCount m + e : Int) := by
  by_contra hsmall
  have hlt : (2 : ℚ) ^ (-1075 : Int) < 10 ^ (-401 : Int) :=
    calc (2 : ℚ) ^ (-1075 : Int) ≤ m * 10 ^ e := le_of_nearest hb hne hnear
      _ < 10 ^ (Shortest.digitCount m + e) := (decimal_bounds hm e).2
      _ ≤ 10 ^ (-401 : Int) := zpow_le_zpow_right₀ (by norm_num) (by omega)
  rw [zpow_neg, zpow_neg, inv_lt_inv₀ (by positivity) (by positivity), zpow_ofNat, zpow_ofNat] at hlt
  exact absurd hlt (not_lt.mpr (two_pow_le_ten_pow (by omega)))

/-- Decimals far above the range are nearest to no number. -/
theorem size_le (hexp : b.exponent ≤ 971) : (Shortest.digitCount m + e : Int) ≤ 400 := by
  by_contra hlarge
  have hle : (2 : ℚ) ^ (1025 : Int) ≤ 2 ^ (1024 : Int) :=
    calc (2 : ℚ) ^ (1025 : Int) ≤ 10 ^ (400 : Int) := by
          rw [zpow_ofNat, zpow_ofNat]
          exact two_pow_le_ten_pow (by omega)
      _ ≤ 10 ^ (Shortest.digitCount m + e - 1) := zpow_le_zpow_right₀ (by norm_num) (by omega)
      _ ≤ m * 10 ^ e := (decimal_bounds hm e).1
      _ ≤ 2 ^ (1024 : Int) := nearest_le hb hexp hnear
  exact absurd ((zpow_le_zpow_iff_right₀ one_lt_two).mp hle) (by decide)

end Size

section Nearest

variable {f : Float} {b : Binary} (hread : Reading.ofFloat f = .finite b)
include hread

theorem lead_le (hne : b.mantissa ≠ 0) : b.shortest.lead.natAbs ≤ 401 := by
  have hb := Reading.canonical hread
  obtain ⟨c, power, hnumeral, hnear⟩ := Shortest.numeral_nearest hb hne
  have hc : c ≠ 0 := by
    rintro rfl
    have hle := le_of_nearest hb hne hnear
    rw [Nat.cast_zero, zero_mul] at hle
    exact absurd hle (not_le.mpr (by positivity))
  have hlow := size_ge hb hc hnear hne
  have hhigh := size_le hb hc hnear (exponent_le hread)
  rw [Binary.shortest, hnumeral, Shortest.numeralOf]
  dsimp only
  omega

variable (hpos : b.negative = false)
include hpos

theorem eq_zero_of_mantissa (hzero : b.mantissa = 0) : f = 0 := by
  rw [← pack_unpacked hread hpos, unpacked, dif_pos hzero]
  rfl

theorem not_isInf : f.isInf = false := by
  change f.toModel.unpack.isInf = false
  rw [unpack_eq hread hpos, unpacked]
  split <;> rfl

/-- A decimal is read as the floating-point number that it is nearest to. -/
theorem nearest_eq {m : Nat} {e : Int} (hnear : b.Nearest (m * 10 ^ e)) : DecimalReader.nearest m e = .ok f := by
  have hb := Reading.canonical hread
  unfold DecimalReader.nearest
  dsimp only
  by_cases hm : m = 0
  · have hzero : b.mantissa = 0 := by
      by_contra hne
      have hle := le_of_nearest hb hne hnear
      rw [hm, Nat.cast_zero, zero_mul] at hle
      exact absurd hle (not_le.mpr (by positivity))
    rw [if_pos (by simp [hm]), eq_zero_of_mantissa hread hpos hzero]
  · have hlog := digitCount_le_log2 hm
    have hsize := size_le hb hm hnear (exponent_le hread)
    rw [← Shortest.digitCount]
    split
    next hsmall =>
      have hzero : b.mantissa = 0 := by
        by_contra hne
        have hlarge := size_ge hb hm hnear hne
        simp only [hm, decide_false, Bool.false_or, decide_eq_true_eq] at hsmall
        omega
      rw [eq_zero_of_mantissa hread hpos hzero]
    next hsmall =>
      simp only [hm, decide_false, Bool.false_or, decide_eq_true_eq, not_lt] at hsmall
      rw [if_neg (not_lt.mpr hsize), ofScientific_eq hread hpos hm hnear (by omega) (by omega)]
      rw [not_isInf hread hpos]
      rfl

/-- So is a whole number times a power of two. -/
theorem nearestBinary_eq {m : Nat} {e : Int} (hnear : b.Nearest (m * 2 ^ e)) : DecimalReader.nearestBinary m e = .ok f := by
  refine nearest_eq hread hpos ?_
  have hvalue : ((m * Nat.pow 2 e.toNat * Nat.pow 5 (-e).toNat : Nat) : ℚ) * 10 ^ min e 0 = m * 2 ^ e := by
    rw [Nat.pow_eq, Nat.pow_eq]
    push_cast
    rcases le_total 0 e with hsign | hsign
    · have hfives : (-e).toNat = 0 := by omega
      rw [min_eq_right hsign, hfives, pow_zero, zpow_zero, mul_one, mul_one, ← zpow_natCast, Int.toNat_of_nonneg hsign]
    · have htwos : e.toNat = 0 := by omega
      have hfives : ((-e).toNat : Int) = -e := by omega
      rw [min_eq_left hsign, htwos, pow_zero, mul_one, ← zpow_natCast, hfives, show (10 : ℚ) = 2 * 5 by norm_num,
        mul_zpow, zpow_neg]
      field_simp
  rwa [hvalue]

end Nearest

end Rounding

namespace DecimalReader

theorem foldl_exponent (ds : Text) (n : Nat) (h : ds.foldl (fun n d => n * 10 + (d.toNat - 48)) n < 100000) :
    ds.foldl (fun n d => if n < 10000 then n * 10 + (d.toNat - 48) else n) n =
      ds.foldl (fun n d => n * 10 + (d.toNat - 48)) n := by
  induction ds generalizing n with
  | nil => rfl
  | cons d ds ih =>
    have hgrows : n * 10 ≤ (d :: ds).foldl (fun n d => n * 10 + (d.toNat - 48)) n := by
      rw [List.foldl_cons, foldl_digits]
      calc n * 10 ≤ n * 10 + (d.toNat - 48) := Nat.le_add_right ..
        _ ≤ (n * 10 + (d.toNat - 48)) * 10 ^ ds.length := Nat.le_mul_of_pos_right _ (Nat.pow_pos (by decide))
        _ ≤ _ := Nat.le_add_right ..
    rw [List.foldl_cons, List.foldl_cons, if_pos (by omega)]
    exact ih _ h

/-- An exponent of up to five digits is read in full. -/
theorem exponentValue_eq {ds : Text} (h : digitsValue ds < 100000) : exponentValue ds = digitsValue ds :=
  foldl_exponent ds 0 h

/-- Digits are read as the floating-point number that they are nearest to. -/
theorem Figures.read_eq {f : Float} {b : Binary} (hread : Reading.ofFloat f = .finite b) (hpos : b.negative = false)
    {n : Figures} {r : Radix} (hexponent : r = .hexadecimal → n.exponent ≠ []) (hsmall : digitsValue n.exponent < 100000)
    (hnear : b.Nearest (n.number r)) : n.read r = .ok f := by
  have hpower : n.power = signed n.negative (digitsValue n.exponent) := by rw [power, exponentValue_eq hsmall]
  cases r with
  | decimal =>
    rw [read, hpower]
    exact Rounding.nearest_eq hread hpos hnear
  | hexadecimal =>
    rw [read, hpower, if_neg (by simpa using hexponent rfl)]
    exact Rounding.nearestBinary_eq hread hpos hnear

theorem isDigit_underscore (r : Radix) : r.isDigit 95 = false := by
  cases r <;> decide

/-- Underscores separate digits if each has a digit on its left and on its right. -/
theorem separated_iff (r : Radix) (after : Bool) (s : Text) :
    separated r.isDigit after s = true ↔ ∀ before behind, s = before ++ 95 :: behind →
      (before.getLast?.map r.isDigit).getD after = true ∧ behind.head?.any r.isDigit = true := by
  induction s generalizing after with
  | nil => simp [separated]
  | cons b s ih =>
    have hstep : separated r.isDigit after (b :: s) = true ↔
        (b = 95 → after = true ∧ s.head?.any r.isDigit = true) ∧ separated r.isDigit (r.isDigit b) s = true := by
      rw [separated]
      split
      next hb => simp [hb, isDigit_underscore]
      next hb => simp [hb]
    rw [hstep, ih]
    constructor
    · rintro ⟨hfirst, hrest⟩ before behind heq
      cases before with
      | nil =>
        obtain ⟨hb, rfl⟩ := List.cons.inj heq
        exact hfirst hb
      | cons c before =>
        obtain ⟨rfl, hs⟩ := List.cons.inj heq
        rw [List.getLast?_cons, Option.map_some, Option.getD_some]
        have hsplit := hrest before behind hs
        cases hlast : before.getLast? with
        | none => rwa [hlast] at hsplit
        | some d => rwa [hlast] at hsplit
    · intro h
      refine ⟨?_, fun before behind heq => ?_⟩
      · rintro rfl
        exact h [] s rfl
      · have hsplit := h (b :: before) behind (congrArg (b :: ·) heq)
        rw [List.getLast?_cons, Option.map_some, Option.getD_some] at hsplit
        cases hlast : before.getLast? with
        | none => rwa [hlast] at hsplit
        | some d => rwa [hlast] at hsplit

theorem separated_of_not_mem {r : Radix} {after : Bool} {s : Text} (h : 95 ∉ s) : separated r.isDigit after s = true := by
  rw [separated_iff]
  rintro before behind rfl
  simp at h

theorem filter_of_not_mem {s : Text} (h : 95 ∉ s) : s.filter (· ≠ 95) = s := by
  rw [List.filter_eq_self]
  intro b hb
  exact decide_eq_true fun heq => h (heq ▸ hb)

/-- Underscores that separate digits mean nothing: the text is read as the floating-point number that its digits are
nearest to. -/
theorem inRadix_eq {f : Float} {b : Binary} (hread : Reading.ofFloat f = .finite b) (hpos : b.negative = false)
    {r : Radix} {after : Bool} {s : Text} (hseparated : separated r.isDigit after s = true) {n : Figures}
    (hn : figures? r (s.filter (· ≠ 95)) = some n) (hexponent : r = .hexadecimal → n.exponent ≠ [])
    (hsmall : digitsValue n.exponent < 100000) (hnear : b.Nearest (n.number r)) : inRadix r after s = .ok f := by
  unfold inRadix
  rw [if_pos hseparated, hn]
  exact Figures.read_eq hread hpos hexponent hsmall hnear

end DecimalReader

theorem Numeral.IsText.plain {t : Text} (h : IsText t) : 95 ∉ t ∧ DecimalReader.hexadecimal? t = none := by
  refine ⟨fun hmem => absurd (h.numeric 95 hmem) (by decide), ?_⟩
  unfold DecimalReader.hexadecimal?
  split
  next x rest =>
    have hx : Text.isNumeric x = true := h.numeric x (by simp)
    rw [if_neg (Text.lowerByte_numeric hx).1]
  next => rfl

/-- The text of a number without a minus sign is read as the number. -/
theorem readFloat_pythonFloat {f : Float} {b : Binary} (hread : Reading.ofFloat f = .finite b) (hpos : b.negative = false) :
    readFloat (pythonFloat f) = .ok f := by
  have htext : pythonFloat f = b.unsignedText := by
    rw [pythonFloat_eq hread, Binary.signed, if_neg (by simp [hpos])]
  have hform := isText_pythonFloat hread hpos
  obtain ⟨d, rest, hfirst, hd⟩ := hform.first
  obtain ⟨hplain, hdecimal⟩ := hform.plain
  obtain ⟨n, hn, hvalue, hsmall⟩ := Binary.writes_unsignedText fun hne => Rounding.lead_le hread hne
  have hnear : b.Nearest (n.number .decimal) := hvalue ▸ (Reading.canonical hread).nearest_decimal
  rw [← htext] at hn
  have hunsigned : DecimalReader.unsigned (pythonFloat f) = .ok f := by
    rw [DecimalReader.unsigned, hdecimal]
    refine DecimalReader.inRadix_eq hread hpos (DecimalReader.separated_of_not_mem hplain) ?_ (fun h => by cases h)
      (hsmall.trans_lt (by decide)) hnear
    rw [DecimalReader.filter_of_not_mem hplain, hn]
  rw [hfirst] at hunsigned ⊢
  rw [readFloat_digit rest hd, hunsigned]

end EnglishScript
