import EcmaTree.Number.Binary64

/-!
# Little-endian packing

A word of `w` bytes is written as its `w` digits in base 256, least significant
digit first.  Signed words are packed through their two's complement pattern and
doubles through their bits.
-/

namespace EcmaTree.LittleEndian

/-- The `w` low-order digits of a number in base 256, least significant first. -/
def ofNat : (w : Nat) → Nat → List UInt8
  | 0, _ => []
  | w + 1, n => UInt8.ofNat n :: ofNat w (n / 256)

/-- The number with the given digits in base 256, least significant first. -/
def toNat : List UInt8 → Nat
  | [] => 0
  | b :: bs => b.toNat + 256 * toNat bs

def packInt32 (i : Int32) : List UInt8 :=
  ofNat 4 i.toUInt32.toNat

def unpackInt32 (bs : List UInt8) : Int32 :=
  (UInt32.ofNat (toNat bs)).toInt32

def packInt64 (i : Int64) : List UInt8 :=
  ofNat 8 i.toUInt64.toNat

def unpackInt64 (bs : List UInt8) : Int64 :=
  (UInt64.ofNat (toNat bs)).toInt64

def packBinary64 (x : Binary64) : List UInt8 :=
  ofNat 8 x.bits.toNat

def unpackBinary64 (bs : List UInt8) : Binary64 :=
  ⟨UInt64.ofNat (toNat bs)⟩

@[simp]
theorem length_ofNat (w n : Nat) : (ofNat w n).length = w := by
  induction w generalizing n with
  | zero => rfl
  | succ w ih => simp [ofNat, ih]

@[simp]
theorem length_packInt32 (i : Int32) : (packInt32 i).length = 4 :=
  length_ofNat 4 _

@[simp]
theorem length_packInt64 (i : Int64) : (packInt64 i).length = 8 :=
  length_ofNat 8 _

@[simp]
theorem length_packBinary64 (x : Binary64) : (packBinary64 x).length = 8 :=
  length_ofNat 8 _

end EcmaTree.LittleEndian
