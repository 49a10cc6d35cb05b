import EcmaTree.Text.Utf8

/-!
# Bytes and characters

The bytes of a text are those of its characters, one after another, and bytes
are accepted exactly if they come about in this way.  One byte alone spells a
text exactly if it is below `80`.
-/

namespace EcmaTree.Utf8

theorem encode_eq_flatMap (s : String) :
    encode s = s.toList.flatMap String.utf8EncodeChar := by
  obtain ⟨cs, rfl⟩ := s.exists_eq_ofList
  simp [encode, List.utf8Encode]

theorem length_encode (s : String) :
    (encode s).length = s.utf8ByteSize := by
  simp [encode]

theorem encode_injective : Function.Injective encode := by
  intro s t h
  apply String.toByteArray_inj.mp
  apply ByteArray.ext
  apply Array.toList_inj.mp
  simpa [encode] using h

/-- Decoding accepts exactly the bytes of texts, and gives back the text. -/
theorem decode_eq_ok_iff
    {bytes : List UInt8} {s : String} :
    decode bytes = .ok s ↔ bytes = encode s := by
  constructor
  · intro h
    unfold decode at h
    split at h
    next t ht =>
      cases h
      rw [String.fromUTF8?] at ht
      split at ht
      · cases ht
        simp [encode, String.fromUTF8]
      · cases ht
    · cases h
  · rintro rfl
    have hbytes : (⟨(encode s).toArray⟩ : ByteArray) = s.toByteArray := by
      simp [encode]
    have hvalid : ByteArray.IsValidUTF8 ⟨(encode s).toArray⟩ := by
      rw [hbytes]
      exact s.isValidUTF8
    have htext : String.fromUTF8 ⟨(encode s).toArray⟩ hvalid = s :=
      String.toByteArray_inj.mp hbytes
    rw [decode, String.fromUTF8?, dif_pos hvalid, htext]

@[simp] theorem decode_encode (s : String) :
    decode (encode s) = .ok s :=
  decode_eq_ok_iff.mpr rfl

/-! ## Texts of one byte -/

theorem utf8EncodeChar_ofUInt8
    {b : UInt8} (h : b < 0x80) :
    String.utf8EncodeChar (Char.ofUInt8 b) = [b] := by
  have hval : (Char.ofUInt8 b).val = b.toUInt32 := rfl
  have hsize : (Char.ofUInt8 b).utf8Size = 1 := by
    rw [Char.utf8Size_eq_one_iff, hval, UInt32.le_iff_toNat_le, UInt8.toNat_toUInt32]
    rw [UInt8.lt_iff_toNat_lt] at h
    exact Nat.le_of_lt_succ h
  rw [String.utf8EncodeChar_eq_singleton hsize, hval, UInt8.toUInt8_toUInt32]

@[simp] theorem encode_singleton_ofUInt8
    {b : UInt8} (h : b < 0x80) :
    encode (String.singleton (Char.ofUInt8 b)) = [b] := by
  simp [encode_eq_flatMap, utf8EncodeChar_ofUInt8 h]

/-- A text of one byte is a single character, which is below `80`. -/
theorem lt_of_encode_eq_singleton
    {s : String} {b : UInt8} (h : encode s = [b]) :
    b < 0x80 := by
  rw [encode_eq_flatMap] at h
  cases hs : s.toList with
  | nil => simp [hs] at h
  | cons c cs =>
      have hlen := congrArg List.length h
      have hpos : 0 < c.utf8Size := c.utf8Size_pos
      simp only [hs, List.flatMap_cons, List.length_append,
        String.length_utf8EncodeChar, List.length_singleton] at hlen
      have hsize : c.utf8Size = 1 := by omega
      have hbyte : c.val.toUInt8 = b := by
        simp only [hs, List.flatMap_cons, String.utf8EncodeChar_eq_singleton hsize,
          List.singleton_append] at h
        exact (List.cons.inj h).1
      have hle : c.val ≤ 0x7f := by
        simpa [Char.utf8Size_eq_one_iff] using hsize
      rw [← hbyte, UInt8.lt_iff_toNat_lt, UInt32.toNat_toUInt8]
      rw [UInt32.le_iff_toNat_le] at hle
      exact Nat.lt_of_le_of_lt (Nat.mod_le _ _) (Nat.lt_succ_of_le hle)

theorem encode_eq_singleton_iff
    {s : String} {b : UInt8} :
    encode s = [b] ↔ b < 0x80 ∧ s = String.singleton (Char.ofUInt8 b) := by
  constructor
  · intro h
    have hb := lt_of_encode_eq_singleton h
    exact ⟨hb, encode_injective (h.trans (encode_singleton_ofUInt8 hb).symm)⟩
  · rintro ⟨hb, rfl⟩
    exact encode_singleton_ofUInt8 hb

end EcmaTree.Utf8
