import Mathlib.Algebra.Order.Field.Basic
import Mathlib.Tactic.Linarith
import Mathlib.Tactic.Ring
import EcmaTree.Number.Binary64

/-!
# Exact values of doubles

A finite double stands for a rational number, its sign, exponent and fraction
being read as the format says.  In units of `2 ^ (-1075)` its absolute value is
the natural number `Binary64.units`, so that statements on exact values become
statements on natural numbers.

Truncation is a division of natural numbers in these units.  A natural number becomes a
double without loss if it is a multiple of the unit of its leading 53 bits, and
this holds of all numbers below `2 ^ 53` and of all values of doubles.
-/

namespace EcmaTree.Binary64

/-! ## Fields -/

/-- The sign and the bits below it are all there is to a double. -/
theorem eq_of_sign_of_magnitude
    {x y : Binary64}
    (hsign : x.isNegative = y.isNegative) (hmagnitude : x.magnitude = y.magnitude) :
    x = y := by
  obtain ⟨x⟩ := x
  obtain ⟨y⟩ := y
  have hx : x.toNat < 2 ^ 64 := x.toNat_lt
  have hy : y.toNat < 2 ^ 64 := y.toNat_lt
  simp only [isNegative, magnitude, decide_eq_decide, Nat.one_shiftLeft] at hsign hmagnitude
  have hbits : x.toNat = y.toNat := by omega
  rw [UInt64.toNat_inj.mp hbits]

theorem magnitude_eq_of_eq
    {x y : Binary64} (h : x.eq y = true) :
    x.magnitude = y.magnitude := by
  simp only [eq, Bool.and_eq_true, Bool.or_eq_true, beq_iff_eq] at h
  rcases h.2 with hbits | ⟨hx, hy⟩
  · rw [magnitude, magnitude, hbits]
  · rw [hx, hy]

theorem magnitude_lt (x : Binary64) : x.magnitude < 2 ^ 63 := by
  rw [magnitude, Nat.one_shiftLeft]
  exact Nat.mod_lt _ (Nat.two_pow_pos 63)

theorem fraction_lt (x : Binary64) : x.fraction < 2 ^ 52 := by
  rw [fraction, Nat.one_shiftLeft]
  exact Nat.mod_lt _ (Nat.two_pow_pos 52)

theorem magnitude_eq (x : Binary64) :
    x.magnitude = x.biasedExponent * 2 ^ 52 + x.fraction := by
  rw [biasedExponent, fraction, Nat.one_shiftLeft, Nat.shiftRight_eq_div_pow]
  exact (Nat.div_add_mod' _ _).symm

theorem significand_lt (x : Binary64) : x.significand < 2 ^ 53 := by
  have hfraction := x.fraction_lt
  rw [significand, Nat.one_shiftLeft]
  split <;> omega

theorem one_le_scale (x : Binary64) : 1 ≤ x.scale :=
  Nat.le_max_right _ _

/-- Only the least scale has significands without a leading bit. -/
theorem le_significand_of_one_lt_scale
    {x : Binary64} (h : 1 < x.scale) :
    2 ^ 52 ≤ x.significand := by
  rw [scale] at h
  rw [significand, Nat.one_shiftLeft]
  split <;> omega

/-- The leading bit of a significand carries into the exponent field. -/
theorem magnitude_add (x : Binary64) :
    x.magnitude + 2 ^ 52 = x.scale * 2 ^ 52 + x.significand := by
  rw [magnitude_eq, scale, significand, Nat.one_shiftLeft]
  split <;> omega

theorem le_scale_iff_le_magnitude
    {x : Binary64} {e : Nat} (he : 1 < e) :
    e ≤ x.scale ↔ e * 2 ^ 52 ≤ x.magnitude := by
  have hadd := x.magnitude_add
  have hsignificand := x.significand_lt
  constructor
  · intro h
    have hleading : 2 ^ 52 ≤ x.significand := le_significand_of_one_lt_scale (by omega)
    omega
  · intro h
    omega

theorem scale_significand_of_magnitude
    {x : Binary64} {e m : Nat} (hm : 2 ^ 52 ≤ m) (hm' : m < 2 ^ 53)
    (h : x.magnitude = e * 2 ^ 52 + m) :
    x.scale = e + 1 ∧ x.significand = m := by
  have hfraction := x.fraction_lt
  rw [magnitude_eq] at h
  rw [scale, significand, Nat.one_shiftLeft]
  split <;> omega

/-! ## Exact values -/

/-- The absolute value of a finite double.  An exponent field of zero marks a
number without a leading bit. -/
def absValue (x : Binary64) : ℚ :=
  if x.biasedExponent = 0 then 2 ^ (-1022 : ℤ) * (x.fraction / 2 ^ 52)
  else 2 ^ ((x.biasedExponent : ℤ) - 1023) * (1 + x.fraction / 2 ^ 52)

def value (x : Binary64) : ℚ :=
  if x.isNegative then -x.absValue else x.absValue

/-- The absolute value of a finite double in units of `2 ^ (-1075)`. -/
def units (x : Binary64) : Nat :=
  x.significand * 2 ^ x.scale

/-- The number one in these units. -/
def unitsOfOne : Nat :=
  2 ^ 1075

theorem unitsOfOne_pos : 0 < unitsOfOne := by
  rw [unitsOfOne]
  positivity

theorem absValue_eq (x : Binary64) : x.absValue = x.units / unitsOfOne := by
  have hstep (e : ℤ) : (2 : ℚ) ^ (e - 1023) = 2 ^ (e - 1075) * 2 ^ 52 := by
    rw [← zpow_natCast, ← zpow_add₀ two_ne_zero]
    congr 1
    omega
  have habs : x.absValue = x.significand * 2 ^ ((x.scale : ℤ) - 1075) := by
    rw [absValue, significand, scale, Nat.one_shiftLeft]
    by_cases hzero : x.biasedExponent = 0
    · rw [if_pos hzero, if_pos hzero, hzero]
      change 2 ^ ((1 : ℤ) - 1023) * ((x.fraction : ℚ) / 2 ^ 52) = x.fraction * 2 ^ ((1 : ℤ) - 1075)
      rw [hstep, mul_assoc, mul_div_cancel₀ _ (by norm_num), mul_comm]
    · have hscale : max x.biasedExponent 1 = x.biasedExponent := by omega
      rw [if_neg hzero, if_neg hzero, hscale, hstep]
      push_cast
      ring
  rw [habs, units, unitsOfOne, zpow_sub₀ two_ne_zero, Nat.cast_mul, Nat.cast_pow, Nat.cast_pow,
    mul_div_assoc]
  rfl

theorem absValue_eq_natCast_iff {x : Binary64} {n : Nat} :
    x.absValue = n ↔ x.units = n * unitsOfOne := by
  have hone : (unitsOfOne : ℚ) ≠ 0 := Nat.cast_ne_zero.mpr unitsOfOne_pos.ne'
  rw [absValue_eq, div_eq_iff hone, ← Nat.cast_mul, Nat.cast_inj]

theorem truncatedMagnitude_eq_div (x : Binary64) :
    x.truncatedMagnitude = x.units / unitsOfOne := by
  rw [truncatedMagnitude, units]
  by_cases h : 1075 ≤ x.scale
  · have hscale : 2 ^ x.scale = unitsOfOne * 2 ^ (x.scale - 1075) := by
      rw [unitsOfOne, ← pow_add, Nat.add_sub_cancel' h]
    rw [if_pos h, hscale, Nat.shiftLeft_eq, Nat.mul_left_comm,
      Nat.mul_div_cancel_left _ unitsOfOne_pos]
  · have hone : unitsOfOne = 2 ^ x.scale * 2 ^ (1075 - x.scale) := by
      rw [unitsOfOne, ← pow_add, Nat.add_sub_cancel' (Nat.le_of_not_le h)]
    rw [if_neg h, hone, Nat.shiftRight_eq_div_pow, Nat.mul_comm,
      Nat.mul_div_mul_left _ _ (Nat.two_pow_pos _)]

theorem le_scale_iff_le_units
    {x : Binary64} {e : Nat} (he : 1 < e) :
    e ≤ x.scale ↔ 2 ^ (52 + e) ≤ x.units := by
  constructor
  · intro h
    have hleading : 2 ^ 52 ≤ x.significand := le_significand_of_one_lt_scale (by omega)
    calc
      2 ^ (52 + e) = 2 ^ 52 * 2 ^ e := pow_add ..
      _ ≤ x.units := Nat.mul_le_mul hleading (Nat.pow_le_pow_right (by decide) h)
  · intro h
    have hlt : 2 ^ (52 + e) < 2 ^ (53 + x.scale) :=
      calc
        2 ^ (52 + e) ≤ x.significand * 2 ^ x.scale := h
        _ < 2 ^ 53 * 2 ^ x.scale :=
          Nat.mul_lt_mul_of_pos_right x.significand_lt (Nat.two_pow_pos _)
        _ = 2 ^ (53 + x.scale) := (pow_add ..).symm
    have hexponent : 52 + e < 53 + x.scale := (Nat.pow_lt_pow_iff_right (by decide)).mp hlt
    omega

/-- Of two doubles the one with the greater scale is greater. -/
theorem scale_le_of_units_le
    {x y : Binary64} (h : x.units ≤ y.units) :
    x.scale ≤ y.scale := by
  by_cases hone : 1 < x.scale
  · exact (le_scale_iff_le_units hone).mpr (((le_scale_iff_le_units hone).mp le_rfl).trans h)
  · have hy := y.one_le_scale
    omega

/-- The absolute value determines all bits below the sign. -/
theorem magnitude_eq_of_units_eq
    {x y : Binary64} (h : x.units = y.units) :
    x.magnitude = y.magnitude := by
  have hscale : x.scale = y.scale :=
    Nat.le_antisymm (scale_le_of_units_le h.le) (scale_le_of_units_le h.ge)
  have hsignificand : x.significand = y.significand := by
    rw [units, units, hscale] at h
    exact Nat.eq_of_mul_eq_mul_right (Nat.two_pow_pos _) h
  have hx := x.magnitude_add
  have hy := y.magnitude_add
  rw [hscale, hsignificand] at hx
  omega

theorem units_eq_of_magnitude_eq
    {x y : Binary64} (h : x.magnitude = y.magnitude) :
    x.units = y.units := by
  have hexponent : x.biasedExponent = y.biasedExponent := by
    rw [biasedExponent, h, biasedExponent]
  have hfraction : x.fraction = y.fraction := by
    rw [fraction, h, fraction]
  rw [units, units, significand, significand, scale, scale, hexponent, hfraction]

/-! ## Natural numbers as doubles -/

/-- A number whose unit of the leading 53 bits divides it is not changed by
rounding to that unit. -/
theorem roundShift_mul_of_dvd
    {n shift : Nat} (h : 2 ^ shift ∣ n) :
    roundShift n shift * 2 ^ shift = n := by
  have hremainder : n % 2 ^ shift = 0 := Nat.mod_eq_zero_of_dvd h
  have hround : roundShift n shift = n / 2 ^ shift := by
    rw [roundShift, Nat.one_shiftLeft, Nat.shiftRight_eq_div_pow, hremainder]
    simp
  rw [hround, Nat.div_mul_cancel h]

/-- No part of the number is rounded away. -/
def Representable (n : Nat) : Prop :=
  2 ^ (n.log2 - 52) ∣ n

theorem leadingBits_mul
    {n : Nat} (h : Representable n) :
    leadingBits n * 2 ^ n.log2 = n * 2 ^ 52 := by
  rw [leadingBits]
  by_cases hsmall : n.log2 ≤ 52
  · rw [if_pos hsmall, Nat.shiftLeft_eq, Nat.mul_assoc, ← pow_add, Nat.sub_add_cancel hsmall]
  · have hsplit : n.log2 - 52 + 52 = n.log2 := by omega
    rw [if_neg hsmall]
    calc
      roundShift n (n.log2 - 52) * 2 ^ n.log2 =
          roundShift n (n.log2 - 52) * 2 ^ (n.log2 - 52) * 2 ^ 52 := by
        rw [Nat.mul_assoc, ← pow_add, hsplit]
      _ = n * 2 ^ 52 := by rw [roundShift_mul_of_dvd h]

theorem le_leadingBits
    {n : Nat} (hzero : n ≠ 0) (h : Representable n) :
    2 ^ 52 ≤ leadingBits n := by
  apply Nat.le_of_mul_le_mul_right _ (Nat.two_pow_pos n.log2)
  rw [leadingBits_mul h, Nat.mul_comm]
  exact Nat.mul_le_mul_right _ (Nat.log2_self_le hzero)

theorem leadingBits_lt
    {n : Nat} (h : Representable n) :
    leadingBits n < 2 ^ 53 := by
  have hlt : n < 2 ^ (n.log2 + 1) := Nat.lt_log2_self
  apply Nat.lt_of_mul_lt_mul_right (a := 2 ^ n.log2)
  calc
    leadingBits n * 2 ^ n.log2 = n * 2 ^ 52 := leadingBits_mul h
    _ < 2 ^ (n.log2 + 1) * 2 ^ 52 := Nat.mul_lt_mul_of_pos_right hlt (Nat.two_pow_pos 52)
    _ = 2 ^ 53 * 2 ^ n.log2 := by ring

theorem toNat_bits_ofNat
    {n : Nat} (hzero : n ≠ 0) (hlt : n < 2 ^ 64) (h : Representable n) :
    (ofNat n).bits.toNat = (1022 + n.log2) * 2 ^ 52 + leadingBits n := by
  have htop : n.log2 < 64 := (Nat.log2_lt hzero).mpr hlt
  have hbits := leadingBits_lt h
  have hofNat : (ofNat n).bits = UInt64.ofNat ((1022 + n.log2) * 2 ^ 52 + leadingBits n) := by
    rw [ofNat, if_neg hzero, Nat.shiftLeft_eq]
  have hsize : (1022 + n.log2) * 2 ^ 52 + leadingBits n < 2 ^ 64 := by omega
  rw [hofNat, UInt64.toNat_ofNat_of_lt' hsize]

theorem isNegative_ofNat
    {n : Nat} (hlt : n < 2 ^ 64) (h : Representable n) :
    (ofNat n).isNegative = false := by
  by_cases hzero : n = 0
  · subst hzero
    decide
  · have htop : n.log2 < 64 := (Nat.log2_lt hzero).mpr hlt
    have hbits := leadingBits_lt h
    rw [isNegative, toNat_bits_ofNat hzero hlt h, Nat.one_shiftLeft]
    exact decide_eq_false (by omega)

/-- A number of which nothing is rounded away keeps its value. -/
theorem units_ofNat
    {n : Nat} (hlt : n < 2 ^ 64) (h : Representable n) :
    (ofNat n).units = n * unitsOfOne := by
  by_cases hzero : n = 0
  · subst hzero
    rw [Nat.zero_mul]
    decide
  · have htop : n.log2 < 64 := (Nat.log2_lt hzero).mpr hlt
    have hbits := leadingBits_lt h
    have hmagnitude : (ofNat n).magnitude = (1022 + n.log2) * 2 ^ 52 + leadingBits n := by
      rw [magnitude, toNat_bits_ofNat hzero hlt h, Nat.one_shiftLeft]
      exact Nat.mod_eq_of_lt (by omega)
    obtain ⟨hscale, hsignificand⟩ :=
      scale_significand_of_magnitude (le_leadingBits hzero h) hbits hmagnitude
    rw [units, hscale, hsignificand]
    calc
      leadingBits n * 2 ^ (1022 + n.log2 + 1) = leadingBits n * 2 ^ n.log2 * 2 ^ 1023 := by
        rw [Nat.mul_assoc, ← pow_add]
        congr 2
        omega
      _ = n * (2 ^ 52 * 2 ^ 1023) := by rw [leadingBits_mul h, Nat.mul_assoc]
      _ = n * unitsOfOne := by rw [unitsOfOne, ← pow_add]

theorem representable_of_lt
    {n : Nat} (h : n < 2 ^ 53) :
    Representable n := by
  have htop : n.log2 - 52 = 0 := by
    by_cases hzero : n = 0
    · subst hzero
      decide
    · have hlog := (Nat.log2_lt hzero).mpr h
      omega
  rw [Representable, htop]
  exact Nat.one_dvd n

/-- The value of a double has no more than 53 bits to keep. -/
theorem representable_of_units
    {x : Binary64} {n : Nat} (h : x.units = n * unitsOfOne) :
    Representable n := by
  by_cases hsmall : n < 2 ^ 53
  · exact representable_of_lt hsmall
  · have hzero : n ≠ 0 := by omega
    -- The scale has to make up for what the significand cannot hold.
    have hpow : 2 ^ (n.log2 + 1075) < 2 ^ (53 + x.scale) :=
      calc
        2 ^ (n.log2 + 1075) = 2 ^ n.log2 * unitsOfOne := by rw [unitsOfOne, pow_add]
        _ ≤ n * unitsOfOne := Nat.mul_le_mul_right _ (Nat.log2_self_le hzero)
        _ = x.significand * 2 ^ x.scale := h.symm
        _ < 2 ^ 53 * 2 ^ x.scale :=
          Nat.mul_lt_mul_of_pos_right x.significand_lt (Nat.two_pow_pos _)
        _ = 2 ^ (53 + x.scale) := (pow_add ..).symm
    have hscale : n.log2 + 1075 < 53 + x.scale := (Nat.pow_lt_pow_iff_right (by decide)).mp hpow
    have hvalue : n = x.significand * 2 ^ (x.scale - 1075) := by
      apply Nat.eq_of_mul_eq_mul_right unitsOfOne_pos
      rw [← h, units, unitsOfOne, Nat.mul_assoc, ← pow_add]
      congr 2
      have hlog : 53 ≤ n.log2 := (Nat.le_log2 hzero).mpr (Nat.le_of_not_lt hsmall)
      omega
    have hdvd : 2 ^ (n.log2 - 52) ∣ x.significand * 2 ^ (x.scale - 1075) :=
      Dvd.dvd.mul_left (Nat.pow_dvd_pow 2 (by omega)) _
    rwa [← hvalue] at hdvd

end EcmaTree.Binary64
