import Mathlib.Algebra.Group.Nat.Defs
import EcmaTree.Bytes.LittleEndian

/-!
# Packing and unpacking are inverse

The digits of a number determine it below the power of 256 that they can
express, and digits are recovered from the number they express.  The laws for
signed words and for doubles follow, since each of them is its bit pattern; a
signed word is the number that its bytes express, brought into the range around
zero.
-/

namespace EcmaTree.LittleEndian

/-! ## Digits -/

theorem toNat_ofNat (w n : Nat) :
    toNat (ofNat w n) = n % 256 ^ w := by
  induction w generalizing n with
  | zero => simp [ofNat, toNat, Nat.mod_one]
  | succ w ih =>
      have hbyte : (UInt8.ofNat n).toNat = n % 256 := by simp
      rw [ofNat, toNat, ih, hbyte, Nat.pow_succ', Nat.mod_mul]

theorem toNat_ofNat_of_lt
    {w n : Nat} (h : n < 256 ^ w) :
    toNat (ofNat w n) = n := by
  rw [toNat_ofNat, Nat.mod_eq_of_lt h]

theorem toNat_lt (bytes : List UInt8) :
    toNat bytes < 256 ^ bytes.length := by
  induction bytes with
  | nil => simp [toNat]
  | cons b bytes ih =>
      have hb : b.toNat < 256 := b.toNat_lt
      rw [toNat, List.length_cons, Nat.pow_succ']
      omega

theorem ofNat_toNat (bytes : List UInt8) :
    ofNat bytes.length (toNat bytes) = bytes := by
  induction bytes with
  | nil => rfl
  | cons b bytes ih =>
      have hb : b.toNat < 256 := b.toNat_lt
      have hquot : (b.toNat + 256 * toNat bytes) / 256 = toNat bytes := by omega
      have hdigit : UInt8.ofNat (b.toNat + 256 * toNat bytes) = b := by
        apply UInt8.toNat_inj.mp
        rw [UInt8.toNat_ofNat']
        omega
      rw [List.length_cons, toNat, ofNat, hquot, ih, hdigit]

/-! ## Words -/

@[simp] theorem unpackInt32_packInt32 (i : Int32) :
    unpackInt32 (packInt32 i) = i := by
  have hlt : i.toUInt32.toNat < 256 ^ 4 := i.toUInt32.toNat_lt
  rw [unpackInt32, packInt32, toNat_ofNat_of_lt hlt, UInt32.ofNat_toNat]
  rfl

@[simp] theorem unpackInt64_packInt64 (i : Int64) :
    unpackInt64 (packInt64 i) = i := by
  have hlt : i.toUInt64.toNat < 256 ^ 8 := i.toUInt64.toNat_lt
  rw [unpackInt64, packInt64, toNat_ofNat_of_lt hlt, UInt64.ofNat_toNat]
  rfl

theorem toNat_packBinary64 (x : Binary64) :
    toNat (packBinary64 x) = x.bits.toNat :=
  toNat_ofNat_of_lt x.bits.toNat_lt

@[simp] theorem unpackBinary64_packBinary64 (x : Binary64) :
    unpackBinary64 (packBinary64 x) = x := by
  rw [unpackBinary64, toNat_packBinary64, UInt64.ofNat_toNat]

theorem toInt_unpackInt32 (bytes : List UInt8) :
    (unpackInt32 bytes).toInt = Int.bmod (toNat bytes) (256 ^ 4) :=
  Int32.toInt_ofNat'

theorem toInt_unpackInt64 (bytes : List UInt8) :
    (unpackInt64 bytes).toInt = Int.bmod (toNat bytes) (256 ^ 8) :=
  Int64.toInt_ofNat'

/-- Four bytes are the ones of the integer that they hold. -/
theorem packInt32_unpackInt32
    {bytes : List UInt8} (h : bytes.length = 4) :
    packInt32 (unpackInt32 bytes) = bytes := by
  have hlt : toNat bytes < 2 ^ 32 := by
    simpa [h] using toNat_lt bytes
  have hword : (unpackInt32 bytes).toUInt32.toNat = toNat bytes :=
    UInt32.toNat_ofNat_of_lt' hlt
  rw [packInt32, hword, ← h]
  exact ofNat_toNat bytes

/-- Eight bytes are the ones of the integer that they hold. -/
theorem packInt64_unpackInt64
    {bytes : List UInt8} (h : bytes.length = 8) :
    packInt64 (unpackInt64 bytes) = bytes := by
  have hlt : toNat bytes < 2 ^ 64 := by
    simpa [h] using toNat_lt bytes
  have hword : (unpackInt64 bytes).toUInt64.toNat = toNat bytes :=
    UInt64.toNat_ofNat_of_lt' hlt
  rw [packInt64, hword, ← h]
  exact ofNat_toNat bytes

/-- Eight bytes are the ones of the double that they hold. -/
theorem packBinary64_unpackBinary64
    {bytes : List UInt8} (h : bytes.length = 8) :
    packBinary64 (unpackBinary64 bytes) = bytes := by
  have hlt : toNat bytes < 2 ^ 64 := by
    simpa [h] using toNat_lt bytes
  have hword : (unpackBinary64 bytes).bits.toNat = toNat bytes :=
    UInt64.toNat_ofNat_of_lt' hlt
  rw [packBinary64, hword, ← h]
  exact ofNat_toNat bytes

end EcmaTree.LittleEndian
