import EcmaTree.Proofs.Dyadic
import EcmaTree.Tree.Literal

/-!
# Numbers in literals

A number is meant to be written as an integer exactly if it is one that 64 bits
can hold, negative zero apart.  What is written is decided by truncating the
number, turning the integer back into a double and comparing.  The two agree on
all numbers but one: `-2 ^ 63` fits, but its absolute value does not pass the
bound, so it is written as a double.
-/

namespace EcmaTree

/-! ## Doubles that are integers -/

namespace Binary64

def negativeZero : Binary64 :=
  ⟨0x8000000000000000⟩

/-- The double of value `-2 ^ 63`. -/
def leastInteger : Binary64 :=
  ⟨0xC3E0000000000000⟩

/-- A double is exactly a 64-bit integer, and not the zero that integers lack. -/
structure IsExactly (x : Binary64) (i : Int64) : Prop where
  finite : x.isFinite = true
  ne_negativeZero : x ≠ negativeZero
  value : x.value = i.toInt

/-- The sign and the absolute value are those of an integer. -/
structure HasParts (x : Binary64) (i : Int) : Prop where
  units : x.units = i.natAbs * unitsOfOne
  sign : x.isNegative = decide (i < 0)

theorem HasParts.eq
    {x y : Binary64} {i : Int} (hx : x.HasParts i) (hy : y.HasParts i) :
    x = y := by
  apply eq_of_sign_of_magnitude
  · rw [hx.sign, hy.sign]
  · apply magnitude_eq_of_units_eq
    rw [hx.units, hy.units]

theorem units_leastInteger : leastInteger.units = 2 ^ 63 * unitsOfOne := by
  rw [unitsOfOne]
  decide +kernel

theorem hasParts_leastInteger : leastInteger.HasParts (-2 ^ 63) where
  units := by
    have habs : (-2 ^ 63 : Int).natAbs = 2 ^ 63 := by decide
    rw [habs, units_leastInteger]
  sign := by decide

theorem eq_negativeZero
    {x : Binary64} (hunits : x.units = 0) (hsign : x.isNegative = true) :
    x = negativeZero := by
  apply eq_of_sign_of_magnitude
  · rw [hsign]
    decide
  · apply magnitude_eq_of_units_eq
    rw [hunits]
    decide

theorem value_eq_of_hasParts
    {x : Binary64} {i : Int} (h : x.HasParts i) :
    x.value = i := by
  have habs : x.absValue = i.natAbs := absValue_eq_natCast_iff.mpr h.units
  rw [value, h.sign, habs, Nat.cast_natAbs]
  by_cases hneg : i < 0
  · simp [hneg, abs_of_neg hneg]
  · simp [hneg, abs_of_nonneg (not_lt.mp hneg)]

theorem hasParts_of_value
    {x : Binary64} {i : Int} (hzero : x ≠ negativeZero) (h : x.value = i) :
    x.HasParts i := by
  have hnonneg : 0 ≤ x.absValue := by
    rw [absValue_eq]
    positivity
  have habs : x.absValue = i.natAbs := by
    rw [Nat.cast_natAbs, Int.cast_abs, ← h, value]
    split
    · rw [abs_neg, abs_of_nonneg hnonneg]
    · rw [abs_of_nonneg hnonneg]
  have hunits := absValue_eq_natCast_iff.mp habs
  refine ⟨hunits, ?_⟩
  rw [value] at h
  by_cases hsign : x.isNegative = true
  · rw [if_pos hsign] at h
    have hle : i ≤ 0 := by
      have : (i : ℚ) ≤ 0 := by linarith
      exact_mod_cast this
    have hne : i ≠ 0 := by
      rintro rfl
      exact hzero (eq_negativeZero (by simpa using hunits) hsign)
    rw [hsign]
    exact (decide_eq_true (by omega)).symm
  · rw [if_neg hsign] at h
    have hge : 0 ≤ i := by
      have : (0 : ℚ) ≤ i := by linarith
      exact_mod_cast this
    rw [Bool.not_eq_true] at hsign
    rw [hsign]
    exact (decide_eq_false (by omega)).symm

theorem isFinite_of_units_le
    {x : Binary64} (h : x.units ≤ leastInteger.units) :
    x.isFinite = true := by
  have hscale : x.scale ≤ leastInteger.scale := scale_le_of_units_le h
  have hleast : leastInteger.scale < 2047 := by decide
  have hexponent : x.biasedExponent ≤ x.scale := Nat.le_max_left _ _
  exact decide_eq_true (by omega)

theorem isNaN_eq_false_of_isFinite
    {x : Binary64} (h : x.isFinite = true) :
    x.isNaN = false := by
  have hexponent : x.biasedExponent < 2047 := of_decide_eq_true h
  have hne : (x.biasedExponent == 2047) = false := beq_eq_false_iff_ne.mpr (by omega)
  rw [isNaN, hne, Bool.false_and]

/-- A double is exactly a 64-bit integer if sign and absolute value agree. -/
theorem isExactly_iff_hasParts {x : Binary64} {i : Int64} :
    x.IsExactly i ↔ x.HasParts i.toInt := by
  constructor
  · intro h
    exact hasParts_of_value h.ne_negativeZero h.value
  · intro h
    refine ⟨isFinite_of_units_le ?_, ?_, value_eq_of_hasParts h⟩
    · have hlower := i.le_toInt
      have hupper := i.toInt_lt
      rw [h.units, units_leastInteger]
      exact Nat.mul_le_mul_right _ (by omega)
    · rintro rfl
      have hsign : i.toInt < 0 := of_decide_eq_true h.sign.symm
      have hunits : i.toInt.natAbs * unitsOfOne = 0 := h.units.symm.trans (by decide)
      have hpos : 0 < i.toInt.natAbs * unitsOfOne := Nat.mul_pos (by omega) unitsOfOne_pos
      omega

theorem isExactly_minValue_iff {x : Binary64} :
    x.IsExactly Int64.minValue ↔ x = leastInteger := by
  rw [isExactly_iff_hasParts, Int64.toInt_minValue]
  constructor
  · intro h
    exact h.eq hasParts_leastInteger
  · rintro rfl
    exact hasParts_leastInteger

/-! ## Casts -/

/-- The numbers below `2 ^ 63` in absolute value, told by their bits. -/
theorem magnitude_lt_iff {x : Binary64} :
    x.magnitude < (1023 + 63) <<< 52 ↔ x.units < 2 ^ 63 * unitsOfOne := by
  have hbound : 2 ^ 63 * unitsOfOne = 2 ^ (52 + (1023 + 63)) := by
    rw [unitsOfOne, ← pow_add]
  rw [hbound, Nat.shiftLeft_eq, ← not_le, ← not_le, ← le_scale_iff_le_magnitude (by decide),
    le_scale_iff_le_units (by decide)]

/-- A number below `2 ^ 63` in absolute value is truncated without saturation. -/
theorem toInt_toInt64
    {x : Binary64} (hnan : x.isNaN = false) (h : x.units < 2 ^ 63 * unitsOfOne) :
    x.toInt64.toInt = x.truncate := by
  have htruncated : x.truncatedMagnitude < 2 ^ 63 := by
    rw [truncatedMagnitude_eq_div]
    exact Nat.div_lt_of_lt_mul (by rwa [Nat.mul_comm])
  have hlower : -2 ^ 63 < x.truncate := by
    rw [truncate]
    split <;> omega
  have hupper : x.truncate < 2 ^ 63 := by
    rw [truncate]
    split <;> omega
  have hmin : Int64.minValue.toInt = -2 ^ 63 := Int64.toInt_minValue
  have hmax : Int64.maxValue.toInt = 2 ^ 63 - 1 := Int64.toInt_maxValue
  have hclamp : max Int64.minValue.toInt (min Int64.maxValue.toInt x.truncate) = x.truncate := by
    omega
  rw [toInt64, hnan, if_neg Bool.false_ne_true, hclamp]
  exact Int64.toInt_ofInt_of_le hlower.le hupper

theorem natAbs_truncate (x : Binary64) : x.truncate.natAbs = x.truncatedMagnitude := by
  rw [truncate]
  split <;> simp

theorem toNat_bits_negative (x : Binary64) :
    x.negative.bits.toNat = 2 ^ 63 + x.magnitude := by
  have hmagnitude := x.magnitude_lt
  have hsize : 2 ^ 63 + x.magnitude < 2 ^ 64 := by omega
  rw [negative, Nat.one_shiftLeft, UInt64.toNat_ofNat_of_lt' hsize]

theorem magnitude_negative (x : Binary64) : x.negative.magnitude = x.magnitude := by
  have hmagnitude := x.magnitude_lt
  rw [magnitude, toNat_bits_negative, Nat.one_shiftLeft]
  omega

theorem isNegative_negative (x : Binary64) : x.negative.isNegative = true := by
  rw [isNegative, toNat_bits_negative, Nat.one_shiftLeft]
  exact decide_eq_true (by omega)

theorem magnitude_ofInt64 (i : Int64) :
    (ofInt64 i).magnitude = (ofNat i.toInt.natAbs).magnitude := by
  rw [ofInt64]
  split
  · exact magnitude_negative _
  · rfl

/-- An integer of which nothing is rounded away keeps its value. -/
theorem hasParts_ofInt64
    {i : Int64} (h : Representable i.toInt.natAbs) :
    (ofInt64 i).HasParts i.toInt := by
  have hlower := i.le_toInt
  have hupper := i.toInt_lt
  have hlt : i.toInt.natAbs < 2 ^ 64 := by omega
  constructor
  · rw [units_eq_of_magnitude_eq (magnitude_ofInt64 i), units_ofNat hlt h]
  · rw [ofInt64]
    by_cases hneg : i.toInt < 0
    · rw [if_pos hneg, isNegative_negative, decide_eq_true hneg]
    · rw [if_neg hneg, isNegative_ofNat hlt h, decide_eq_false hneg]

end Binary64

/-! ## What is written -/

namespace LiteralValue

open Binary64

theorem sign_agrees_iff {negative : Bool} {i : Int} :
    (!negative == decide (0 ≤ i)) = true ↔ negative = decide (i < 0) := by
  by_cases h : i < 0
  · have hle : ¬0 ≤ i := by omega
    cases negative <;> simp [h, hle]
  · have hle : 0 ≤ i := by omega
    cases negative <;> simp [h, hle]

/-- A number that passes as an integer is the integer. -/
theorem hasParts_of_isInteger
    {x : Binary64} (h : isInteger x = true) :
    x.HasParts x.toInt64.toInt ∧ x.toInt64.toInt.natAbs < 2 ^ 63 := by
  simp only [isInteger, Bool.and_eq_true, decide_eq_true_eq] at h
  obtain ⟨⟨heq, hsign⟩, hmagnitude⟩ := h
  have hbound := magnitude_lt_iff.mp hmagnitude
  have hnan : x.isNaN = false := by
    simp only [Binary64.eq, Bool.and_eq_true, Bool.not_eq_true'] at heq
    exact heq.1.2
  have habs : x.toInt64.toInt.natAbs = x.truncatedMagnitude := by
    rw [toInt_toInt64 hnan hbound, natAbs_truncate]
  have hsame : (ofNat x.truncatedMagnitude).magnitude = x.magnitude := by
    rw [← habs, ← magnitude_ofInt64]
    exact magnitude_eq_of_eq heq
  have hunits : x.units = x.truncatedMagnitude * unitsOfOne := by
    -- From a scale of 1075 on every number is an integer; below, integers are not rounded.
    by_cases hscale : 1075 ≤ x.scale
    · have hdvd : unitsOfOne ∣ x.units := Dvd.dvd.mul_left (pow_dvd_pow 2 hscale) _
      rw [truncatedMagnitude_eq_div, Nat.div_mul_cancel hdvd]
    · have hsmall : x.truncatedMagnitude < 2 ^ 53 := by
        rw [truncatedMagnitude_eq_div]
        apply Nat.div_lt_of_lt_mul
        calc
          x.units < 2 ^ (52 + 1075) :=
            not_le.mp (mt (le_scale_iff_le_units (by decide)).mpr hscale)
          _ = unitsOfOne * 2 ^ 52 := by rw [unitsOfOne, pow_add, Nat.mul_comm]
          _ ≤ unitsOfOne * 2 ^ 53 := Nat.mul_le_mul_left _ (by decide)
      rw [← units_eq_of_magnitude_eq hsame,
        units_ofNat (by omega) (representable_of_lt hsmall)]
  have hlt : x.truncatedMagnitude < 2 ^ 63 := by
    rw [hunits] at hbound
    exact Nat.lt_of_mul_lt_mul_right hbound
  rw [habs]
  refine ⟨⟨by rw [habs, hunits], ?_⟩, hlt⟩
  exact sign_agrees_iff.mp hsign

theorem isInteger_of_hasParts
    {x : Binary64} {i : Int64} (h : x.HasParts i.toInt) (hlt : i.toInt.natAbs < 2 ^ 63) :
    isInteger x = true ∧ x.toInt64 = i := by
  have hbound : x.units < 2 ^ 63 * unitsOfOne := by
    rw [h.units]
    exact Nat.mul_lt_mul_of_pos_right hlt unitsOfOne_pos
  have hnan : x.isNaN = false := by
    apply isNaN_eq_false_of_isFinite
    apply isFinite_of_units_le
    rw [units_leastInteger]
    exact hbound.le
  have htruncated : x.truncatedMagnitude = i.toInt.natAbs := by
    rw [truncatedMagnitude_eq_div, h.units, Nat.mul_div_cancel _ unitsOfOne_pos]
  have htruncate : x.truncate = i.toInt := by
    rw [truncate, htruncated, h.sign]
    by_cases hneg : i.toInt < 0
    · rw [decide_eq_true hneg, if_pos rfl]
      omega
    · rw [decide_eq_false hneg, if_neg Bool.false_ne_true]
      omega
  have hcast : x.toInt64 = i := by
    apply Int64.toInt_inj.mp
    rw [toInt_toInt64 hnan hbound, htruncate]
  have hback : ofInt64 i = x := (hasParts_ofInt64 (representable_of_units h.units)).eq h
  refine ⟨?_, hcast⟩
  simp only [isInteger, hcast, hback, Bool.and_eq_true, decide_eq_true_eq]
  refine ⟨⟨?_, sign_agrees_iff.mpr h.sign⟩, magnitude_lt_iff.mpr hbound⟩
  simp [Binary64.eq, hnan]

/-- A number is written as the integer that it is, unless that is the least one. -/
theorem numberEvent_eq_int_iff {x : Binary64} {i : Int64} :
    numberEvent x = .int i ↔ x.IsExactly i ∧ i ≠ Int64.minValue := by
  have hrange : i ≠ Int64.minValue ↔ i.toInt.natAbs < 2 ^ 63 := by
    have hlower := i.le_toInt
    have hupper := i.toInt_lt
    rw [Ne, ← Int64.toInt_inj, Int64.toInt_minValue]
    omega
  rw [hrange, isExactly_iff_hasParts, numberEvent]
  constructor
  · intro h
    by_cases hinteger : isInteger x = true
    · rw [if_pos hinteger] at h
      obtain rfl := Event.int.inj h
      exact hasParts_of_isInteger hinteger
    · rw [if_neg hinteger] at h
      cases h
  · rintro ⟨hparts, hlt⟩
    obtain ⟨hinteger, rfl⟩ := isInteger_of_hasParts hparts hlt
    rw [if_pos hinteger]

theorem numberEvent_eq_float_iff {x : Binary64} :
    numberEvent x = .float x ↔ ∀ i, numberEvent x ≠ .int i := by
  rw [numberEvent]
  split <;> simp

theorem eventsThen_number (x : Binary64) (e : Event) :
    (number x).eventsThen [] = [e] ↔ numberEvent x = e := by
  rw [eventsThen, List.cons.injEq, and_iff_left rfl]

/-- The events of a number are one integer if the number is exactly that integer,
and otherwise the number itself, for all numbers but the least integer. -/
theorem number_events_exact_iff (x : Binary64) :
    ((∀ i : Int64, (number x).eventsThen [] = [.int i] ↔ x.IsExactly i) ∧
      ((¬∃ i : Int64, x.IsExactly i) → (number x).eventsThen [] = [.float x])) ↔
      x ≠ leastInteger := by
  simp only [eventsThen_number, numberEvent_eq_float_iff, numberEvent_eq_int_iff]
  constructor
  · rintro ⟨hint, -⟩ rfl
    have hexact : leastInteger.IsExactly Int64.minValue := isExactly_minValue_iff.mpr rfl
    exact ((hint Int64.minValue).mpr hexact).2 rfl
  · intro hx
    have hleast (i : Int64) (hi : x.IsExactly i) : i ≠ Int64.minValue := by
      rintro rfl
      exact hx (isExactly_minValue_iff.mp hi)
    constructor
    · intro i
      exact ⟨And.left, fun hi => ⟨hi, hleast i hi⟩⟩
    · intro hnone i hi
      exact hnone ⟨i, (numberEvent_eq_int_iff.mp hi).1⟩

/-- The least integer is written as a double, though it is exactly an integer. -/
theorem number_events_leastInteger :
    leastInteger.IsExactly Int64.minValue ∧
      (number leastInteger).eventsThen [] = [.float leastInteger] := by
  refine ⟨isExactly_minValue_iff.mpr rfl, ?_⟩
  decide

end LiteralValue

end EcmaTree
