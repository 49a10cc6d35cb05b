import Mathlib.Data.Nat.Digits.Lemmas
import EcmaTree.Proofs.Grammar

/-!
# The order of packed bytes

Packing is a bijection between words and lists of as many bytes as the word has.
The byte of index `k` has the weight `256 ^ k`, so that the bytes add up to the
bit pattern of the word: a signed word modulo the power of two that its width
gives, and the bits of a double.

The same bytes are had by shifts and masks.  The byte of index `k` is what is left
of the pattern when it is shifted by `8 * k` bits and all but the lowest eight are
masked out, and the bytes shifted back to their places make up the pattern, none
of them overlapping another.
-/

namespace EcmaTree.LittleEndian

/-! ## Weights, shifts and masks -/

theorem sum_mapIdx_eq_toNat (bytes : List UInt8) :
    (bytes.mapIdx fun k b => b.toNat * 256 ^ k).sum = toNat bytes := by
  have hdigits : (bytes.map UInt8.toNat).mapIdx (fun k d => d * 256 ^ k) =
      bytes.mapIdx fun k b => b.toNat * 256 ^ k := by
    apply List.ext_getElem?
    intro k
    simp only [List.getElem?_mapIdx, List.getElem?_map, Option.map_map]
    rfl
  rw [← Grammar.number_eq_toNat, Grammar.number, Nat.ofDigits_eq_sum_mapIdx, hdigits]

/-- A digit is shifted down and cut out of the number. -/
theorem getElem?_ofNat {w k : Nat} (h : k < w) (n : Nat) :
    (ofNat w n)[k]? = some (UInt8.ofNat (n >>> (8 * k) &&& 0xFF)) := by
  induction w generalizing n k with
  | zero => exact absurd h (Nat.not_lt_zero k)
  | succ w ih =>
      cases k with
      | zero =>
          have hmask : n &&& 0xFF = n % 2 ^ 8 := Nat.and_two_pow_sub_one_eq_mod n 8
          rw [ofNat, List.getElem?_cons_zero, Nat.mul_zero, Nat.shiftRight_zero, hmask,
            UInt8.ofNat_mod_size]
      | succ k =>
          have hshift : n >>> (8 * (k + 1)) = (n / 256) >>> (8 * k) := by
            rw [Nat.mul_succ, Nat.add_comm, Nat.shiftRight_add, Nat.shiftRight_eq_div_pow n 8]
          rw [ofNat, List.getElem?_cons_succ, ih (Nat.lt_of_succ_lt_succ h), hshift]

theorem shiftLeft_or_of_byte (b : UInt8) (n : Nat) :
    b.toNat ||| n <<< 8 = b.toNat + 256 * n := by
  have hb : b.toNat < 2 ^ 8 := b.toNat_lt
  rw [Nat.or_comm, ← Nat.shiftLeft_add_eq_or_of_lt hb, Nat.shiftLeft_eq, Nat.add_comm,
    Nat.mul_comm]

/-- Bytes that are shifted to their places, all of them by some more bytes. -/
theorem foldr_or_mapIdx_shiftLeft (bytes : List UInt8) (j : Nat) :
    (bytes.mapIdx fun k b => b.toNat <<< (8 * (k + j))).foldr (· ||| ·) 0 =
      toNat bytes <<< (8 * j) := by
  induction bytes generalizing j with
  | nil => rw [List.mapIdx_nil, List.foldr_nil, toNat, Nat.zero_shiftLeft]
  | cons b bytes ih =>
      -- The other bytes are one place further on, which `j` takes up.
      have hindex : ∀ k, k + 1 + j = k + (j + 1) := by omega
      have hplace : 8 * (j + 1) = 8 + 8 * j := by omega
      rw [List.mapIdx_cons, List.foldr_cons]
      simp only [hindex]
      rw [ih (j + 1), Nat.zero_add, hplace, Nat.shiftLeft_add, ← Nat.shiftLeft_or_distrib,
        shiftLeft_or_of_byte, toNat]

theorem foldr_or_eq_toNat (bytes : List UInt8) :
    (bytes.mapIdx fun k b => b.toNat <<< (8 * k)).foldr (· ||| ·) 0 = toNat bytes :=
  foldr_or_mapIdx_shiftLeft bytes 0

/-! ## Words -/

/-- A bijection between words, each with its bit pattern, and lists of `w` bytes, in
which the least significant byte comes first. -/
structure Packs {α : Type} (w : Nat) (pattern : α → Nat) (pack : α → List UInt8)
    (unpack : List UInt8 → α) : Prop where
  length_pack : ∀ a, (pack a).length = w
  unpack_pack : ∀ a, unpack (pack a) = a
  pack_unpack : ∀ bytes, bytes.length = w → pack (unpack bytes) = bytes
  /-- The bytes add up to the pattern, each by its weight. -/
  sum_pack : ∀ a, ((pack a).mapIdx fun k b => b.toNat * 256 ^ k).sum = pattern a
  /-- Each byte is cut out of the pattern. -/
  getElem?_pack : ∀ a k, k < w →
    (pack a)[k]? = some (UInt8.ofNat (pattern a >>> (8 * k) &&& 0xFF))
  /-- The pattern is put together from the bytes. -/
  or_pack : ∀ a, ((pack a).mapIdx fun k b => b.toNat <<< (8 * k)).foldr (· ||| ·) 0 = pattern a

theorem packs_of_pattern
    {α : Type} {w : Nat} {pattern : α → Nat} {pack : α → List UInt8} {unpack : List UInt8 → α}
    (hpattern : ∀ a, pattern a < 256 ^ w) (hpack : ∀ a, pack a = ofNat w (pattern a))
    (hunpack : ∀ a, unpack (pack a) = a)
    (hback : ∀ bytes, bytes.length = w → pack (unpack bytes) = bytes) :
    Packs w pattern pack unpack where
  length_pack a := by rw [hpack, length_ofNat]
  unpack_pack := hunpack
  pack_unpack := hback
  sum_pack a := by rw [sum_mapIdx_eq_toNat, hpack, toNat_ofNat_of_lt (hpattern a)]
  getElem?_pack a k hk := by rw [hpack, getElem?_ofNat hk]
  or_pack a := by rw [foldr_or_eq_toNat, hpack, toNat_ofNat_of_lt (hpattern a)]

/-- The bit pattern of a signed word is its value modulo a power of two. -/
theorem toNat_eq_toInt_emod {n : Nat} (x : BitVec n) : x.toNat = (x.toInt % 2 ^ n).toNat := by
  have hmod : (x.toNat : Int) % (2 ^ n : Nat) = x.toNat :=
    Int.emod_eq_of_lt (Int.natCast_nonneg _) (Int.ofNat_lt.mpr x.isLt)
  have hpow : (2 ^ n : Int) = (2 ^ n : Nat) := by rw [Nat.cast_pow, Nat.cast_ofNat]
  rw [BitVec.toInt_eq_toNat_bmod, hpow, Int.bmod_emod, hmod, Int.toNat_natCast]

/-- Packing is a bijection between words and lists of bytes, with the least
significant byte first: for signed words of four and of eight bytes, whose pattern
is the value modulo `2 ^ 32` and `2 ^ 64`, and for doubles, whose pattern is their
bits. -/
theorem packing_bijective_in_order :
    Packs 4 (fun i : Int32 => (i.toInt % 2 ^ 32).toNat) packInt32 unpackInt32 ∧
    Packs 8 (fun i : Int64 => (i.toInt % 2 ^ 64).toNat) packInt64 unpackInt64 ∧
    Packs 8 (fun x : Binary64 => x.bits.toNat) packBinary64 unpackBinary64 := by
  have hpattern32 : ∀ i : Int32, i.toUInt32.toNat = (i.toInt % 2 ^ 32).toNat :=
    fun i => toNat_eq_toInt_emod i.toBitVec
  have hpattern64 : ∀ i : Int64, i.toUInt64.toNat = (i.toInt % 2 ^ 64).toNat :=
    fun i => toNat_eq_toInt_emod i.toBitVec
  refine ⟨?_, ?_, ?_⟩
  · refine packs_of_pattern ?_ ?_ unpackInt32_packInt32 fun _ => packInt32_unpackInt32
    · intro i
      rw [← hpattern32]
      exact i.toUInt32.toNat_lt
    · intro i
      rw [← hpattern32, packInt32]
  · refine packs_of_pattern ?_ ?_ unpackInt64_packInt64 fun _ => packInt64_unpackInt64
    · intro i
      rw [← hpattern64]
      exact i.toUInt64.toNat_lt
    · intro i
      rw [← hpattern64, packInt64]
  · exact packs_of_pattern (fun x => x.bits.toNat_lt) (fun _ => rfl) unpackBinary64_packBinary64
      fun _ => packBinary64_unpackBinary64

example : packInt32 0x01020304 = [4, 3, 2, 1] ∧ packInt32 (-2) = [0xFE, 0xFF, 0xFF, 0xFF] := by
  decide

end EcmaTree.LittleEndian
