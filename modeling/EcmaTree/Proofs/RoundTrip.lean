import EcmaTree.Proofs.Delivery
import EcmaTree.Proofs.Parsing

/-!
# Encoding and decoding a sequence of values

The encoding of a value denotes the value with null in place of every infinity
and every NaN, provided that the lengths of its texts can be written.  So values
that were encoded one after another are decoded one after another, and whatever
follows the last of them is left alone.
-/

namespace EcmaTree

/-! ## Numbers and texts -/

namespace Encoding

/-- An integer that fits into four bytes is recovered from them. -/
theorem toInt64_toInt32_of_fits
    {i : Int64} (h : fitsInt32 i = true) :
    i.toInt32.toInt64 = i := by
  rw [fitsInt32, Bool.and_eq_true, decide_eq_true_iff, decide_eq_true_iff,
    Int32.toInt_minValue, Int32.toInt_maxValue] at h
  apply Int64.toInt_inj.mp
  rw [Int32.toInt_toInt64, Int64.toInt_toInt32]
  exact Int.bmod_eq_of_le (by omega) (by omega)

theorem integer_integerBytes (i : Int64) :
    Grammar.Integer (integerBytes i) i.toInt := by
  rw [integerBytes, Grammar.integer_iff]
  by_cases hfits : fitsInt32 i = true
  · have hsame : i.toInt = i.toInt32.toInt := by
      rw [← Int32.toInt_toInt64, toInt64_toInt32_of_fits hfits]
    rw [if_pos hfits]
    exact .inl ⟨i.toInt32, rfl, hsame⟩
  · rw [if_neg hfits]
    exact .inr ⟨i, rfl, rfl⟩

/-- A text is encoded according to the grammar if its length can be written. -/
theorem text_textBytes
    {s : String} (h : s.utf8ByteSize < 2 ^ 63) :
    Grammar.Text (textBytes (Utf8.encode s)) s := by
  rw [← Utf8.length_encode] at h
  -- A text of one byte is written without its length.
  by_cases hone : ∃ b, Utf8.encode s = [b]
  · obtain ⟨b, hb⟩ := hone
    obtain ⟨hlt, rfl⟩ := Utf8.encode_eq_singleton_iff.mp hb
    rw [hb]
    exact .char b hlt
  · have hlength : (textLength (Utf8.encode s)).toInt = (Utf8.encode s).length :=
      Int64.toInt_ofNat_of_lt h
    have hheader := integer_integerBytes (textLength (Utf8.encode s))
    rw [hlength] at hheader
    rw [textBytes_of_ne_singleton (not_exists.mp hone)]
    rw [Utf8.encode_eq_flatMap] at hheader ⊢
    exact .string s hheader

end Encoding

/-! ## Values -/

namespace Value

open Encoding

theorem encoding_int (i : Int64) : (Value.int i).encoding = integerBytes i := by
  simpa [encoding, events, eventsThen] using Event.encoding_int i

theorem encoding_float (x : Binary64) :
    (Value.float x).encoding =
      if x.isFinite then Tag.float64.byte :: LittleEndian.packBinary64 x else [Tag.null.byte] := by
  have hbytes : (Value.float x).encoding = (Event.float x).encoding := by
    simp [encoding, events, eventsThen]
  rw [hbytes, Event.encoding, Event.pieces]
  split <;> simp [tagPieces]

theorem encoding_text (s : String) : (Value.text s).encoding = textBytes (Utf8.encode s) := by
  simpa [encoding, events, eventsThen] using Event.encoding_text s

theorem encoding_array (items : List Value) :
    (Value.array items).encoding =
      Tag.arrayStart.byte :: (items.flatMap encoding ++ [Tag.arrayEnd.byte]) := by
  rw [encoding, events_array, List.flatMap_cons, List.flatMap_append, List.flatMap_assoc]
  rfl

theorem encoding_object (members : List (String × Value)) :
    (Value.object members).encoding =
      Tag.objectStart.byte ::
        (members.flatMap (fun m => textBytes (Utf8.encode m.1) ++ m.2.encoding) ++
          [Tag.objectEnd.byte]) := by
  rw [encoding, events_object, List.flatMap_cons, List.flatMap_append, List.flatMap_assoc]
  simp only [memberEvents, List.flatMap_cons, Event.encoding_member]
  rfl

/-- The encoding of a value denotes the normalized value. -/
theorem denotes_encoding
    {v : Value} (h : ∀ s ∈ v.texts, s.utf8ByteSize < 2 ^ 63) :
    Grammar.Denotes v.encoding v.normalize := by
  induction v with
  | null => exact .scalar .null
  | bool b =>
      cases b
      · exact .scalar .false
      · exact .scalar .true
  | int i =>
      rw [encoding_int]
      exact .scalar (.int (integer_integerBytes i))
  | float x =>
      rw [encoding_float, normalize]
      split
      · obtain ⟨hlen, hbits⟩ :=
          Grammar.eq_packBinary64_iff.mp (Eq.refl (LittleEndian.packBinary64 x))
        exact .scalar (.float hlen hbits)
      · exact .scalar .null
  | text s =>
      rw [encoding_text]
      exact .scalar (.text (text_textBytes (h s (by simp [texts]))))
  | array items ih =>
      rw [encoding_array, normalize, normalizeItems_eq_map]
      refine .array ?_
      rw [texts, textsItems_eq_flatMap] at h
      induction items with
      | nil => exact .nil
      | cons v vs ihs =>
          obtain ⟨hv, hvs⟩ := List.forall_mem_cons.mp ih
          rw [List.flatMap_cons, List.forall_mem_append] at h
          exact .cons (hv h.1) (ihs hvs h.2)
  | object members ih =>
      rw [encoding_object, normalize, normalizeMembers_eq_map]
      refine .object ?_
      rw [texts, textsMembers_eq_flatMap] at h
      induction members with
      | nil => exact .nil
      | cons m ms ihs =>
          obtain ⟨hm, hms⟩ := List.forall_mem_cons.mp ih
          rw [List.flatMap_cons, List.forall_mem_append, List.forall_mem_cons] at h
          exact .cons (text_textBytes h.1.1) (hm h.1.2) (ihs hms h.2)

end Value

/-! ## Sequences of values -/

namespace Source

theorem decode_encoding
    {v : Value} {bound : Nat} (htexts : ∀ s ∈ v.texts, s.utf8ByteSize < 2 ^ 63)
    (hdepth : v.depth ≤ bound) (rest : List UInt8) (position : Nat) :
    (⟨v.encoding ++ rest, position, []⟩ : Source).decode bound =
      (.ok v.normalize, ⟨rest, position + v.encoding.length, []⟩) := by
  apply (decode_eq_ok_iff _ _ _ _ _).mpr
  refine ⟨v.encoding, rest, rfl, Value.denotes_encoding htexts, ?_, rfl⟩
  rw [Value.depth_normalize]
  exact hdepth

theorem decodeTimes_encoding
    {values : List Value} {bound : Nat}
    (htexts : ∀ v ∈ values, ∀ s ∈ v.texts, s.utf8ByteSize < 2 ^ 63)
    (hdepth : ∀ v ∈ values, v.depth ≤ bound) (rest : List UInt8) (position : Nat) :
    ∃ position', (⟨values.flatMap Value.encoding ++ rest, position, []⟩ : Source).decodeTimes bound
        values.length = (values.map fun v => .ok v.normalize, ⟨rest, position', []⟩) := by
  induction values generalizing position with
  | nil => exact ⟨position, rfl⟩
  | cons v values ih =>
      obtain ⟨hv, hvalues⟩ := List.forall_mem_cons.mp htexts
      obtain ⟨dv, dvalues⟩ := List.forall_mem_cons.mp hdepth
      have hfirst := decode_encoding hv dv (values.flatMap Value.encoding ++ rest) position
      obtain ⟨position', hothers⟩ := ih hvalues dvalues (position + v.encoding.length)
      refine ⟨position', ?_⟩
      rw [List.flatMap_cons, List.append_assoc, List.length_cons, decodeTimes, hfirst]
      simp only [hothers, List.map_cons]

/-- Values that are encoded one after another are decoded one after another, with
null in place of infinities and NaNs, and what follows them is left unread. -/
theorem decodeTimes_encode
    (values : List Value) (bound : Nat) (rest : List UInt8)
    (htexts : ∀ v ∈ values, ∀ s ∈ v.texts, s.utf8ByteSize < 2 ^ 63)
    (hdepth : ∀ v ∈ values, v.depth ≤ bound) :
    ∃ encodings : List (List UInt8),
      values.map Value.encode = encodings.map .ok ∧
      ((⟨encodings.flatten ++ rest, 0, []⟩ : Source).decodeTimes bound values.length).1 =
        values.map (fun v => .ok v.normalize) ∧
      ((⟨encodings.flatten ++ rest, 0, []⟩ : Source).decodeTimes bound values.length).2.unread =
        rest := by
  obtain ⟨position, hdecode⟩ := decodeTimes_encoding htexts hdepth rest 0
  refine ⟨values.map Value.encoding, ?_, ?_⟩
  · rw [List.map_map]
    exact List.map_congr_left fun v _ => v.encode_eq
  · rw [← List.flatMap_def, hdecode]
    exact ⟨rfl, rfl⟩

/-- Two values, the first with a repeated name and an infinity, before a byte
that begins no value. -/
theorem decodeTimes_encode_two :
    ∃ encodings : List (List UInt8),
      [Value.object [("a", .array [.int 7, .float ⟨0x7FF0000000000000⟩]), ("a", .text "é")],
        .int 0x10000000000].map Value.encode = encodings.map .ok ∧
      ((⟨encodings.flatten ++ [0], 0, []⟩ : Source).decodeTimes 2 2).1 =
        [.ok (.object [("a", .array [.int 7, .null]), ("a", .text "é")]),
          .ok (.int 0x10000000000)] ∧
      ((⟨encodings.flatten ++ [0], 0, []⟩ : Source).decodeTimes 2 2).2.unread = [0] := by
  refine decodeTimes_encode _ 2 [0] ?_ ?_
  · decide
  · decide

end Source

end EcmaTree
