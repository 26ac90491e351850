import Mathlib
import EnglishScript.Decimal.Layout
import EnglishScript.Decimal.Reader
import EnglishScript.Proofs.Lexeme

namespace EnglishScript

open Float.Model in
/-- A number without a minus sign. -/
def Magnitude : UnpackedFloat → Prop
  | .infinity s => s = .positive
  | .notANumber => False
  | .zero s => s = .positive
  | .finite s _ _ _ => s = .positive

namespace Magnitude

open Float.Model UnpackedFloat

theorem roundWithAccuracy (spec : Format) (m : Nat) (e : Int) (acc : Accuracy) :
    Magnitude (UnpackedFloat.roundWithAccuracy spec .positive m e acc) := by
  unfold UnpackedFloat.roundWithAccuracy
  dsimp only
  split <;> rfl

theorem ofNat (spec : Format) (n : Nat) : Magnitude (UnpackedFloat.ofNat spec n) := by
  unfold UnpackedFloat.ofNat UnpackedFloat.ofInt UnpackedFloat.normalize
  split
  next h => simp [Int.compare_eq_lt] at h; omega
  next => rfl
  next => exact roundWithAccuracy _ _ _ _

theorem mul {spec : Format} {u : UnpackedFloat} (hu : Magnitude u) {m : Nat} {e : Int} (hm : 0 < m) :
    Magnitude (UnpackedFloat.mul spec u (.finite .positive m e hm)) := by
  cases u with
  | infinity s => cases hu; rfl
  | notANumber => exact hu.elim
  | zero s => cases hu; rfl
  | finite s n f hn =>
    cases hu
    exact roundWithAccuracy _ _ _ _

theorem div {spec : Format} {u : UnpackedFloat} (hu : Magnitude u) {m : Nat} {e : Int} (hm : 0 < m) :
    Magnitude (UnpackedFloat.div spec u (.finite .positive m e hm)) := by
  cases u with
  | infinity s => cases hu; rfl
  | notANumber => exact hu.elim
  | zero s => cases hu; rfl
  | finite s n f hn =>
    cases hu
    exact roundWithAccuracy _ _ _ _

theorem ofScientific (spec : Format) (m : Nat) (e : Int) : Magnitude (UnpackedFloat.ofScientific spec m e) := by
  unfold UnpackedFloat.ofScientific
  split
  next => rfl
  next =>
    split
    next => rfl
    next =>
      split
      next => rfl
      next =>
        split
        next => exact mul (show Magnitude (.finite .positive _ _ _) from rfl) _
        next => exact div (show Magnitude (.finite .positive _ _ _) from rfl) _

theorem unpack_components {spec : Format} {exponent : BitVec spec.exponentBits}
    {mantissa : BitVec spec.mantissaBitsWithoutImplicit} (h : exponent = -1#_ → mantissa = 0#_) :
    Magnitude (UnpackedFloat.unpack spec (packComponents spec .positive exponent mantissa)) := by
  have hsign : Sign.ofBitVec (unpackSign (packComponents spec .positive exponent mantissa)) = .positive := by
    rw [unpackSign_packComponents]
    rfl
  unfold UnpackedFloat.unpack
  dsimp only
  split
  next he =>
    rw [unpackExponent_packComponents] at he
    rw [if_pos (by rw [unpackMantissa_packComponents]; exact h he)]
    exact hsign
  next =>
    split
    next => split <;> exact hsign
    next => exact hsign

theorem unpack_pack {u : UnpackedFloat} (hu : Magnitude u) : Magnitude (Float.Model.pack u).unpack := by
  change Magnitude (UnpackedFloat.unpack Format.binary64 (UnpackedFloat.pack Format.binary64 u))
  unfold UnpackedFloat.pack
  split
  next => exact hu.elim
  next s => cases hu; exact unpack_components fun _ => rfl
  next s => cases hu; exact unpack_components fun _ => rfl
  next s m e hm =>
    cases hu
    dsimp only
    split
    next => exact unpack_components fun _ => rfl
    next hsmall =>
      split
      next =>
        refine unpack_components fun h => ?_
        have hn := congrArg BitVec.toNat h
        simp at hn hsmall
        omega
      next =>
        refine unpack_components fun h => ?_
        exact absurd h (by decide)

theorem powers_finite : ∀ f ∈ Float.exactlyRepresentablePowersOfTen.toList,
    ∃ m e hm, f.toModel.unpack = .finite .positive m e hm := by
  have hall : Float.exactlyRepresentablePowersOfTen.toList.all (fun f =>
    match f.toModel.unpack with
    | .finite .positive _ _ _ => true
    | _ => false) = true := by decide +kernel
  intro f hf
  have h := List.all_eq_true.mp hall f hf
  split at h
  next m e hm heq => exact ⟨m, e, hm, heq⟩
  next => cases h

theorem float_ofScientific (m : Nat) (s : Bool) (e : Nat) : Magnitude (Float.ofScientific m s e).toModel.unpack := by
  unfold Float.ofScientific
  split
  next h =>
    obtain ⟨n, k, hn, hp⟩ := powers_finite _ (Array.getElem_mem_toList _)
    have hm : Magnitude m.toUInt64.toFloat.toModel.unpack := unpack_pack (ofNat _ _)
    split
    next =>
      refine unpack_pack (u := UnpackedFloat.div _ _ _) ?_
      rw [hp]
      exact div hm hn
    next =>
      refine unpack_pack (u := UnpackedFloat.mul _ _ _) ?_
      rw [hp]
      exact mul hm hn
  next => exact unpack_pack (ofScientific _ _ _)

end Magnitude

open Float.Model UnpackedFloat in
theorem Reading.unpackExponent_toNat (f : Float) :
    (@unpackExponent Format.binary64 f.toModel.toBits.toBitVec).toNat =
      f.toBits.toNat / Nat.pow 2 52 % Nat.pow 2 11 := by
  have hbits : f.toBits = f.toModel.toBits := rfl
  simp [unpackExponent, Nat.shiftRight_eq_div_pow, hbits]

open Float.Model UnpackedFloat in
theorem Reading.unpackSign_toNat (f : Float) :
    (@unpackSign Format.binary64 f.toModel.toBits.toBitVec).toNat = f.toBits.toNat / Nat.pow 2 63 := by
  have hlt : f.toModel.toBits.toNat < 2 ^ 64 := f.toModel.toBits.toNat_lt
  have hbits : f.toBits = f.toModel.toBits := rfl
  simp [unpackSign_def, Nat.shiftRight_eq_div_pow, hbits]
  omega

open Float.Model UnpackedFloat in
/-- A number without a minus sign that is not infinite is read as a finite number without one. -/
theorem Reading.ofFloat_magnitude {f : Float} (h : Magnitude f.toModel.unpack) (hinf : f.isInf = false) :
    ∃ b, Reading.ofFloat f = .finite b ∧ b.negative = false := by
  have hexp := Reading.unpackExponent_toNat f
  have hsign := Reading.unpackSign_toNat f
  have hinf' : f.toModel.unpack.isInf = false := hinf
  unfold Float.Model.unpack UnpackedFloat.unpack at h hinf'
  dsimp only at h hinf'
  split at h
  next he =>
    rw [if_pos he] at hinf'
    split at h
    next hm => rw [if_pos hm] at hinf'; cases hinf'
    next => exact h.elim
  next he =>
    have hpositive : Sign.ofBitVec (@unpackSign Format.binary64 f.toModel.toBits.toBitVec) = .positive := by
      split at h
      next => split at h <;> exact h
      next => exact h
    have hzero : f.toBits.toNat / Nat.pow 2 63 = 0 := by
      unfold Sign.ofBitVec at hpositive
      split at hpositive
      next hs => rw [← hsign, hs]; rfl
      next => cases hpositive
    have hne : f.toBits.toNat / Nat.pow 2 52 % Nat.pow 2 11 ≠ Nat.pow 2 11 - 1 := by
      rw [← hexp]
      intro heq
      exact he (BitVec.eq_of_toNat_eq heq)
    unfold Reading.ofFloat
    simp only [hzero, hne, ↓reduceIte]
    split
    · exact ⟨_, rfl, rfl⟩
    · exact ⟨_, rfl, rfl⟩

namespace Text

/-- The bytes of a number: digits, the point, the letter of the exponent and its sign. -/
def isNumeric (b : UInt8) : Bool :=
  isDigit b || b == 46 || b == 101 || b == 43 || b == 45

theorem isNumeric_of_isDigit {b : UInt8} (h : isDigit b = true) : isNumeric b = true := by
  simp [isNumeric, h]

theorem isDigit_ofNat {n : Nat} {b : UInt8} (h : b ∈ ofNat n) : isDigit b = true := by
  obtain ⟨c, hc, rfl⟩ := List.mem_map.mp h
  have hdigit := Nat.isDigit_of_mem_toDigits (by decide) (by decide) hc
  simp only [Char.isDigit, Bool.and_eq_true, decide_eq_true_eq] at hdigit
  have hlow : 48 ≤ c.toNat := UInt32.le_iff_toNat_le.mp hdigit.1
  have hhigh : c.toNat ≤ 57 := UInt32.le_iff_toNat_le.mp hdigit.2
  simp only [isDigit, Bool.and_eq_true, decide_eq_true_eq, UInt8.le_iff_toNat_le, Nat.toUInt8_eq, UInt8.toNat_ofNat']
  rw [Nat.mod_eq_of_lt (by omega)]
  exact ⟨hlow, hhigh⟩

theorem ofNat_ne_nil (n : Nat) : ofNat n ≠ [] := by
  simp [ofNat, Nat.toDigits_ne_nil]

theorem exists_nonzero_digit {n : Nat} (h : n ≠ 0) : ∃ b ∈ ofNat n, b ≠ 48 := by
  induction n using Nat.strongRecOn with
  | ind n ih =>
    by_cases hn : n < 10
    · have hdigit : ∀ k < 10, k ≠ 0 → k.digitChar.toNat.toUInt8 ≠ 48 := by decide
      refine ⟨n.digitChar.toNat.toUInt8, ?_, hdigit n hn h⟩
      simp [ofNat, Nat.toDigits_of_lt_base hn]
    · obtain ⟨b, hb, hne⟩ := ih (n / 10) (by omega) (by omega)
      refine ⟨b, ?_, hne⟩
      have hdigits := Nat.toDigits_of_base_le (b := 10) (n := n) (by decide) (by omega)
      rw [ofNat, hdigits, List.map_append]
      exact List.mem_append_left _ hb

end Text

/-- A numeral with at least one digit and nothing but digits. -/
def Numeral.Proper (d : Numeral) : Prop :=
  d.digits ≠ [] ∧ ∀ b ∈ d.digits, Text.isDigit b = true

namespace Shortest

theorem proper_numeralOf {c : Nat} (h : c ≠ 0) (power : Int) : (numeralOf c power).Proper := by
  constructor
  · obtain ⟨b, hb, hne⟩ := Text.exists_nonzero_digit h
    simp only [numeralOf, significant, ne_eq, List.reverse_eq_nil_iff, List.dropWhile_eq_nil_iff, not_forall]
    exact ⟨b, by simpa using hb, by simpa using hne⟩
  · intro b hb
    have hmem := (List.dropWhile_sublist _).mem (List.mem_reverse.mp hb)
    exact Text.isDigit_ofNat (List.mem_reverse.mp hmem)

theorem compareGrid_zero (power : Int) {num den : Nat} (h : 0 < num) : compareGrid 0 power num den = .lt := by
  have hpow : 0 < num * Nat.pow 10 (-power).toNat := Nat.mul_pos h (Nat.pow_pos (by decide))
  simpa [compareGrid, Nat.compare_eq_lt] using hpow

theorem Target.accepts_ne_zero {t : Target} (hlow : 0 < t.low) (hhigh : 0 < t.high) {c : Nat} {power : Int}
    (h : t.accepts c power = true) : c ≠ 0 := by
  rintro rfl
  rw [Target.accepts, compareGrid_zero power hlow, compareGrid_zero power hhigh] at h
  cases h

theorem Target.onGrid_accepts {t : Target} {power : Int} {c : Nat} (h : t.onGrid power = some c) :
    t.accepts c power = true := by
  unfold Target.onGrid at h
  simp only at h
  split at h
  next hbelow habove =>
    split at h
    next => cases Option.some.inj h; exact hbelow
    next => cases Option.some.inj h; exact habove
    next =>
      cases Option.some.inj h
      split
      · exact hbelow
      · exact habove
  next hbelow _ => cases Option.some.inj h; exact hbelow
  next _ habove => cases Option.some.inj h; exact habove
  next => cases h

theorem Target.numeral_proper {t : Target} (hlow : 0 < t.low) (hhigh : 0 < t.high) : t.numeral.Proper := by
  unfold Target.numeral
  simp only
  generalize hfound : List.findSome? _ _ = found
  cases found with
  | none => exact ⟨by decide, List.all_eq_true.mp rfl⟩
  | some d =>
    obtain ⟨n, _, hn⟩ := List.exists_of_findSome?_eq_some hfound
    obtain ⟨c, hc, rfl⟩ := Option.map_eq_some_iff.mp hn
    exact proper_numeralOf (accepts_ne_zero hlow hhigh (onGrid_accepts hc)) _

end Shortest

theorem Binary.shortest_proper {b : Binary} (h : b.mantissa ≠ 0) : b.shortest.Proper := by
  have hstep : 0 < b.scaleUp := Nat.pow_pos (by decide)
  have hvalue : 4 * b.scaleUp ≤ 4 * b.mantissa * b.scaleUp := by
    have := Nat.mul_le_mul_right b.scaleUp (show 4 ≤ 4 * b.mantissa by omega)
    exact this
  apply Shortest.Target.numeral_proper
  · simp only [Shortest.Target.ofBinary]
    split <;> omega
  · simp only [Shortest.Target.ofBinary]
    omega

namespace Numeral

/-- Nothing, or a point with digits behind it. -/
def IsFraction (t : Text) : Prop :=
  t = [] ∨ ∃ ds, t = 46 :: ds ∧ ds ≠ [] ∧ ∀ b ∈ ds, Text.isDigit b = true

/-- Nothing, or the letter of an exponent with a sign and digits behind it. -/
def IsPower (t : Text) : Prop :=
  t = [] ∨ ∃ sign ds, t = 101 :: sign :: ds ∧ (sign = 43 ∨ sign = 45) ∧ ds ≠ [] ∧ ∀ b ∈ ds, Text.isDigit b = true

/-- Digits, and a fraction if there is no exponent: a text that is never taken for a whole number. -/
def IsText (t : Text) : Prop :=
  ∃ whole fraction power, t = whole ++ fraction ++ power ∧ whole ≠ [] ∧ (∀ b ∈ whole, Text.isDigit b = true) ∧
    IsFraction fraction ∧ IsPower power ∧ (fraction ≠ [] ∨ power ≠ [])

theorem IsFraction.numeric {t : Text} (h : IsFraction t) : ∀ b ∈ t, Text.isNumeric b = true := by
  rcases h with rfl | ⟨ds, rfl, _, hds⟩
  · simp
  · exact List.forall_mem_cons.mpr ⟨by decide, fun b hb => Text.isNumeric_of_isDigit (hds b hb)⟩

theorem IsPower.numeric {t : Text} (h : IsPower t) : ∀ b ∈ t, Text.isNumeric b = true := by
  rcases h with rfl | ⟨sign, ds, rfl, hsign, _, hds⟩
  · simp
  · have hsign' : Text.isNumeric sign = true := by rcases hsign with rfl | rfl <;> decide
    exact List.forall_mem_cons.mpr ⟨by decide, List.forall_mem_cons.mpr ⟨hsign', fun b hb =>
      Text.isNumeric_of_isDigit (hds b hb)⟩⟩

theorem IsText.numeric {t : Text} (h : IsText t) : ∀ b ∈ t, Text.isNumeric b = true := by
  obtain ⟨whole, fraction, power, rfl, _, hwhole, hfraction, hpower, _⟩ := h
  intro b hb
  simp only [List.mem_append] at hb
  rcases hb with (hb | hb) | hb
  · exact Text.isNumeric_of_isDigit (hwhole b hb)
  · exact hfraction.numeric b hb
  · exact hpower.numeric b hb

theorem IsText.first {t : Text} (h : IsText t) : ∃ d rest, t = d :: rest ∧ Text.isDigit d = true := by
  obtain ⟨whole, fraction, power, rfl, hne, hwhole, _⟩ := h
  obtain ⟨d, rest, rfl⟩ := List.exists_cons_of_ne_nil hne
  exact ⟨d, _, rfl, hwhole d (by simp)⟩

theorem isDigit_zeros {n : Nat} {b : UInt8} (h : b ∈ zeros n) : Text.isDigit b = true := by
  rw [List.eq_of_mem_replicate h]
  decide

theorem Proper.positional {d : Numeral} (h : d.Proper) : ∃ whole fraction, d.positional = whole ++ fraction ∧
    whole ≠ [] ∧ (∀ b ∈ whole, Text.isDigit b = true) ∧ IsFraction fraction := by
  unfold Numeral.positional
  split
  · refine ⟨[48], 46 :: (zeros (-d.lead - 1).toNat ++ d.digits), ?_, by simp, List.all_eq_true.mp rfl, ?_⟩
    · rw [List.append_assoc]
      rfl
    · refine Or.inr ⟨_, rfl, by simp [h.1], ?_⟩
      exact List.forall_mem_append.mpr ⟨fun b => isDigit_zeros, h.2⟩
  · simp only
    split
    · refine ⟨d.digits ++ zeros (d.lead.toNat + 1 - d.digits.length), [], by simp, by simp [h.1], ?_, Or.inl rfl⟩
      exact List.forall_mem_append.mpr ⟨h.2, fun b => isDigit_zeros⟩
    · next hlong =>
      refine ⟨d.digits.take (d.lead.toNat + 1), 46 :: d.digits.drop (d.lead.toNat + 1), ?_, by simpa using h.1,
        fun b hb => h.2 b (List.mem_of_mem_take hb), ?_⟩
      · rw [List.append_assoc]
        rfl
      · refine Or.inr ⟨_, rfl, ?_, fun b hb => h.2 b (List.mem_of_mem_drop hb)⟩
        simpa using hlong

theorem exponentText_digits (n : Int) : ∃ sign ds, utf8 "e" ++ exponentText n = 101 :: sign :: ds ∧
    (sign = 43 ∨ sign = 45) ∧ 2 ≤ ds.length ∧ ∀ b ∈ ds, Text.isDigit b = true := by
  refine ⟨if n < 0 then 45 else 43, zeros (2 - (Text.ofNat n.natAbs).length) ++ Text.ofNat n.natAbs, ?_, ?_, ?_, ?_⟩
  · unfold exponentText
    split <;> rfl
  · split <;> simp
  · rw [List.length_append, zeros, List.length_replicate]
    omega
  · exact List.forall_mem_append.mpr ⟨fun b => isDigit_zeros, fun b => Text.isDigit_ofNat⟩

theorem isPower_exponentText (n : Int) : IsPower (utf8 "e" ++ exponentText n) := by
  obtain ⟨sign, ds, htext, hsign, hlength, hds⟩ := exponentText_digits n
  exact Or.inr ⟨sign, ds, htext, hsign, List.ne_nil_of_length_pos (by omega), hds⟩

theorem Proper.scientific_digits {d : Numeral} (h : d.Proper) : ∃ whole fraction,
    d.scientific = whole ++ fraction ++ (utf8 "e" ++ exponentText d.lead) ∧
    whole ≠ [] ∧ (∀ b ∈ whole, Text.isDigit b = true) ∧ IsFraction fraction := by
  refine ⟨d.digits.take 1, if (d.digits.drop 1).isEmpty then [] else utf8 "." ++ d.digits.drop 1, ?_, by simpa using h.1,
    fun b hb => h.2 b (List.mem_of_mem_take hb), ?_⟩
  · simp only [Numeral.scientific, List.append_assoc]
  · split
    · exact Or.inl rfl
    · next hne =>
      exact Or.inr ⟨d.digits.drop 1, rfl, by simpa using hne, fun b hb => h.2 b (List.mem_of_mem_drop hb)⟩

theorem Proper.scientific {d : Numeral} (h : d.Proper) : IsText d.scientific := by
  obtain ⟨whole, fraction, htext, hne, hwhole, hfraction⟩ := h.scientific_digits
  exact ⟨whole, fraction, _, htext, hne, hwhole, hfraction, isPower_exponentText d.lead, Or.inr (List.cons_ne_nil _ _)⟩

theorem withPoint_digits {whole fraction : Text} (hwhole : ∀ b ∈ whole, Text.isDigit b = true)
    (hfraction : IsFraction fraction) :
    ∃ ds, withPoint (whole ++ fraction) = whole ++ 46 :: ds ∧ ds ≠ [] ∧ ∀ b ∈ ds, Text.isDigit b = true := by
  rcases hfraction with rfl | ⟨ds, rfl, hds⟩
  · have hpoint : 46 ∉ whole := fun hmem => absurd (hwhole 46 hmem) (by decide)
    refine ⟨[48], ?_, by decide, List.all_eq_true.mp rfl⟩
    rw [List.append_nil, withPoint, if_neg (by simpa using hpoint)]
    rfl
  · refine ⟨ds, ?_, hds⟩
    rw [withPoint, if_pos (by simp)]

/-- A point makes digits a text that is never taken for a whole number. -/
theorem isText_withPoint {whole fraction : Text} (hne : whole ≠ []) (hwhole : ∀ b ∈ whole, Text.isDigit b = true)
    (hfraction : IsFraction fraction) : IsText (withPoint (whole ++ fraction)) := by
  obtain ⟨ds, htext, hds⟩ := withPoint_digits hwhole hfraction
  exact ⟨whole, 46 :: ds, [], by rw [htext, List.append_nil], hne, hwhole, Or.inr ⟨ds, rfl, hds⟩, Or.inl rfl,
    Or.inl (List.cons_ne_nil _ _)⟩

end Numeral

theorem Binary.positional_digits (b : Binary) : ∃ whole fraction, b.positional = whole ++ fraction ∧
    whole ≠ [] ∧ (∀ b ∈ whole, Text.isDigit b = true) ∧ Numeral.IsFraction fraction := by
  unfold Binary.positional
  split
  · exact ⟨[48], [], rfl, by decide, List.all_eq_true.mp rfl, Or.inl rfl⟩
  · next h => exact (Binary.shortest_proper h).positional

theorem Binary.mantissa_ne_zero {b : Binary} (h : (b.isTiny || b.isHuge) = true) : b.mantissa ≠ 0 := by
  intro hzero
  have hdown : 0 < b.scaleDown := Nat.pow_pos (by decide)
  have hpow : 0 < Nat.pow 10 16 := by decide
  have hprod := Nat.mul_pos hpow hdown
  simp only [isTiny, hzero, isHuge, Bool.or_eq_true, decide_eq_true_eq] at h
  simp at h
  omega

/-- The text of a finite number without a minus sign has a point with digits on both sides, or an exponent. -/
theorem isText_pythonFloat {f : Float} {b : Binary} (hread : Reading.ofFloat f = .finite b) (hpos : b.negative = false) :
    Numeral.IsText (pythonFloat f) := by
  have hsigned (t : Text) : b.signed t = t := by simp [Binary.signed, hpos]
  unfold pythonFloat
  simp only [hread, hsigned]
  split
  next h => exact (Binary.shortest_proper (Binary.mantissa_ne_zero h)).scientific
  next =>
    obtain ⟨whole, fraction, htext, hne, hwhole, hfraction⟩ := b.positional_digits
    rw [htext]
    exact Numeral.isText_withPoint hne hwhole hfraction

namespace DecimalReader

theorem nearest_magnitude {m : Nat} {e : Int} {f : Float} (h : nearest m e = .ok f) :
    Magnitude f.toModel.unpack ∧ f.isInf = false := by
  unfold nearest at h
  simp only at h
  split at h
  next =>
    cases Except.ok.inj h
    exact ⟨Magnitude.float_ofScientific 0 false 0, by decide +kernel⟩
  next =>
    split at h
    next => cases h
    next =>
      split at h
      next => cases h
      next hinf =>
        cases Except.ok.inj h
        exact ⟨Magnitude.float_ofScientific _ _ _, Bool.eq_false_iff.mpr hinf⟩

theorem Figures.read_nearest {n : Figures} {r : Radix} {f : Float} (h : n.read r = .ok f) : ∃ m e, nearest m e = .ok f := by
  cases r with
  | decimal => exact ⟨_, _, h⟩
  | hexadecimal =>
    rw [read] at h
    split at h
    next => cases h
    next => exact ⟨_, _, h⟩

theorem inRadix_nearest {r : Radix} {after : Bool} {s : Text} {f : Float} (h : inRadix r after s = .ok f) :
    ∃ m e, nearest m e = .ok f := by
  unfold inRadix at h
  split at h
  next =>
    split at h
    next => exact Figures.read_nearest h
    next => cases h
  next => cases h

theorem unsigned_nearest {s : Text} {f : Float} (h : unsigned s = .ok f) : ∃ m e, nearest m e = .ok f := by
  unfold unsigned at h
  split at h
  next => exact inRadix_nearest h
  next => exact inRadix_nearest h

end DecimalReader

namespace Text

theorem isDigit_of_isAlpha {c : UInt8} (h : isAlpha c = true) : isDigit c = false := by
  have hrange : 65 ≤ c.toNat := by
    simp only [isAlpha, Bool.or_eq_true, Bool.and_eq_true, decide_eq_true_eq, beq_iff_eq, UInt8.le_iff_toNat_le] at h
    rcases h with (h | h) | rfl
    · exact Nat.le_trans (by decide) h.1
    · exact h.1
    · decide
  have hhigh : ¬c ≤ 57 := by
    intro hle
    have hle' : c.toNat ≤ 57 := UInt8.le_iff_toNat_le.mp hle
    omega
  simp [isDigit, hhigh]

theorem lowerByte_of_isDigit {d : UInt8} (h : isDigit d = true) : lowerByte d = d := by
  simp only [isDigit, Bool.and_eq_true, decide_eq_true_eq] at h
  have hhigh : d.toNat ≤ 57 := UInt8.le_iff_toNat_le.mp h.2
  have hsmall : ¬65 ≤ d := by
    intro hle
    have hle' : 65 ≤ d.toNat := UInt8.le_iff_toNat_le.mp hle
    omega
  simp [lowerByte, hsmall]

theorem lowerByte_numeric {b : UInt8} (h : isNumeric b = true) : lowerByte b ≠ 120 ∧
    lowerByte b ≠ 111 ∧ lowerByte b ≠ 98 := by
  simp only [isNumeric, Bool.or_eq_true, beq_iff_eq] at h
  rcases h with (((h | rfl) | rfl) | rfl) | rfl
  · rw [lowerByte_of_isDigit h]
    refine ⟨?_, ?_, ?_⟩ <;> (rintro rfl; cases h)
  · decide
  · decide
  · decide
  · decide

theorem sameLetters_of_isDigit {d c : UInt8} {rest w : Text} (hd : isDigit d = true) (hne : lowerByte c ≠ d) :
    sameLetters (d :: rest) (c :: w) = false := by
  simp only [sameLetters, lower, List.map_cons, lowerByte_of_isDigit hd, beq_eq_false_iff_ne, ne_eq, List.cons.injEq]
  exact fun h => hne h.1.symm

end Text

/-- A text that starts with a digit has no sign and is no name of a number. -/
theorem readFloat_digit {d : UInt8} (rest : Text) (hd : Text.isDigit d = true) :
    readFloat (d :: rest) = DecimalReader.unsigned (d :: rest) := by
  have hne (c : UInt8) (hc : Text.isDigit c = false) : c ≠ d := by
    rintro rfl
    rw [hc] at hd
    cases hd
  have hsign : DecimalReader.takeSign (d :: rest) = (false, d :: rest) := by
    unfold DecimalReader.takeSign
    split
    next heq => exact absurd (List.cons.inj heq).1.symm (hne 43 (by decide))
    next heq => exact absurd (List.cons.inj heq).1.symm (hne 45 (by decide))
    next => rfl
  have hinf : DecimalReader.isInfinity (d :: rest) = false := by
    have hshort : Text.sameLetters (d :: rest) (utf8 "inf") = false :=
      Text.sameLetters_of_isDigit hd (hne (Text.lowerByte 105) (by decide))
    have hlong : Text.sameLetters (d :: rest) (utf8 "infinity") = false :=
      Text.sameLetters_of_isDigit hd (hne (Text.lowerByte 105) (by decide))
    simp [DecimalReader.isInfinity, hshort, hlong]
  have hnan : Text.sameLetters (d :: rest) (utf8 "nan") = false :=
    Text.sameLetters_of_isDigit hd (hne (Text.lowerByte 110) (by decide))
  unfold readFloat
  simp only [hsign, hinf, hnan, Bool.false_eq_true, ↓reduceIte]
  cases DecimalReader.unsigned (d :: rest) <;> rfl

/-- The value of a number of a source is finite and has no minus sign. -/
theorem Text.IsNumeral.reading {t : Text} (h : t.IsNumeral) {f : Float} (hf : readFloat t = .ok f) :
    ∃ b, Reading.ofFloat f = .finite b ∧ b.negative = false := by
  obtain ⟨d, whole, fraction, rfl, hd, _, _⟩ := h
  rw [readFloat_digit _ hd] at hf
  obtain ⟨m, e, hnearest⟩ := DecimalReader.unsigned_nearest hf
  obtain ⟨hmag, hinf⟩ := DecimalReader.nearest_magnitude hnearest
  exact Reading.ofFloat_magnitude hmag hinf

end EnglishScript
