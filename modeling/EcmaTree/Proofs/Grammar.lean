import Mathlib.Data.Nat.Digits.Defs
import EcmaTree.Data.Value
import EcmaTree.Proofs.Packing
import EcmaTree.Wire.Tag

/-!
# The grammar of the wire format

The relations of this file say which bytes stand for which value, without regard
to how they are written or read.  An integer may take either width whatever its
size, and a text of one byte may have its length written out, so that one value
may be denoted by different bytes.
-/

namespace EcmaTree

namespace Tag

theorem ofByte?_byte (t : Tag) : ofByte? t.byte = some t := by
  cases t <;> rfl

theorem ofByte?_eq_some_iff {b : UInt8} {t : Tag} :
    ofByte? b = some t ↔ b = t.byte := by
  constructor
  · intro h
    have hbyte := List.find?_some h
    exact (beq_iff_eq.mp hbyte).symm
  · rintro rfl
    exact ofByte?_byte t

theorem ofByte?_eq_none_iff {b : UInt8} :
    ofByte? b = none ↔ ∀ t : Tag, b ≠ t.byte := by
  simp only [Option.eq_none_iff_forall_ne_some, ne_eq, ofByte?_eq_some_iff]

@[simp] theorem byte_inj {t u : Tag} : t.byte = u.byte ↔ t = u := by
  constructor
  · intro h
    have hsome := ofByte?_byte t
    rw [h, ofByte?_byte] at hsome
    exact (Option.some.inj hsome).symm
  · rintro rfl
    rfl

end Tag

namespace Grammar

/-! ## Scalars -/

/-- The number that bytes express, the least significant byte first. -/
def number (c : List UInt8) : Nat :=
  Nat.ofDigits 256 (c.map UInt8.toNat)

/-- Bytes of an integer in two's complement. -/
def Signed (width : Nat) (c : List UInt8) (i : Int) : Prop :=
  c.length = width ∧ i = Int.bmod (number c) (256 ^ width)

/-- Bytes of an integer with its tag, `l` or `L`. -/
inductive Integer : List UInt8 → Int → Prop where
  | int32 {c : List UInt8} {i : Int} (h : Signed 4 c i) : Integer (0x6C :: c) i
  | int64 {c : List UInt8} {i : Int} (h : Signed 8 c i) : Integer (0x4C :: c) i

/-- Bytes of a text: a single byte below `80` after the tag `C`, or, after the
tag `S`, the number of bytes of the text and the bytes of its characters. -/
inductive Text : List UInt8 → String → Prop where
  | char (b : UInt8) (h : b < 0x80) :
      Text [0x43, b] (String.singleton (Char.ofUInt8 b))
  | string {header : List UInt8} (s : String)
      (h : Integer header (s.toList.flatMap String.utf8EncodeChar).length) :
      Text (0x53 :: (header ++ s.toList.flatMap String.utf8EncodeChar)) s

/-- Bytes of a value without parts: the tag `Z`, `T` or `F` alone, an integer, the
tag `D` before the bits of a double, or a text. -/
inductive Scalar : List UInt8 → Value → Prop where
  | null : Scalar [0x5A] .null
  | true : Scalar [0x54] (.bool true)
  | false : Scalar [0x46] (.bool false)
  | int {c : List UInt8} {i : Int64} (h : Integer c i.toInt) : Scalar c (.int i)
  | float {c : List UInt8} {x : Binary64} (hlen : c.length = 8)
      (hbits : x.bits.toNat = number c) :
      Scalar (0x44 :: c) (.float x)
  | text {c : List UInt8} {s : String} (h : Text c s) : Scalar c (.text s)

/-! ## Values -/

mutual

/-- Bytes of a value, with brackets around items and braces around members. -/
inductive Denotes : List UInt8 → Value → Prop where
  | scalar {c : List UInt8} {v : Value} (h : Scalar c v) : Denotes c v
  | array {c : List UInt8} {items : List Value} (h : Items c items) :
      Denotes (0x5B :: (c ++ [0x5D])) (.array items)
  | object {c : List UInt8} {members : List (String × Value)} (h : Members c members) :
      Denotes (0x7B :: (c ++ [0x7D])) (.object members)

/-- Bytes of values one after another. -/
inductive Items : List UInt8 → List Value → Prop where
  | nil : Items [] []
  | cons {c d : List UInt8} {v : Value} {items : List Value}
      (hv : Denotes c v) (hitems : Items d items) :
      Items (c ++ d) (v :: items)

/-- Bytes of members one after another, each a text and a value. -/
inductive Members : List UInt8 → List (String × Value) → Prop where
  | nil : Members [] []
  | cons {c d e : List UInt8} {name : String} {v : Value} {members : List (String × Value)}
      (hname : Text c name) (hv : Denotes d v) (hmembers : Members e members) :
      Members (c ++ d ++ e) ((name, v) :: members)

end

/-! ## One part more -/

theorem Items.concat
    {c d : List UInt8} {items : List Value} {v : Value}
    (hitems : Items c items) (hv : Denotes d v) :
    Items (c ++ d) (items ++ [v]) := by
  induction items generalizing c with
  | nil =>
      cases hitems
      simpa using Items.cons hv .nil
  | cons w items ih =>
      cases hitems with
      | cons hw hrest =>
          rw [List.append_assoc]
          exact .cons hw (ih hrest)

theorem Members.concat
    {c d e : List UInt8} {members : List (String × Value)} {name : String} {v : Value}
    (hmembers : Members c members) (hname : Text d name) (hv : Denotes e v) :
    Members (c ++ d ++ e) (members ++ [(name, v)]) := by
  induction members generalizing c with
  | nil =>
      cases hmembers
      simpa using Members.cons hname hv .nil
  | cons m members ih =>
      cases hmembers with
      | cons hname' hv' hrest =>
          simpa [List.append_assoc] using Members.cons hname' hv' (ih hrest)

/-! ## Numbers as they are packed -/

theorem number_eq_toNat (c : List UInt8) :
    number c = LittleEndian.toNat c := by
  rw [number]
  induction c with
  | nil => rfl
  | cons b c ih => rw [List.map_cons, Nat.ofDigits_cons, ih, LittleEndian.toNat]

theorem signed_four_iff {c : List UInt8} {i : Int} :
    Signed 4 c i ↔ ∃ j : Int32, c = LittleEndian.packInt32 j ∧ i = j.toInt := by
  constructor
  · rintro ⟨hlen, hi⟩
    refine ⟨LittleEndian.unpackInt32 c, (LittleEndian.packInt32_unpackInt32 hlen).symm, ?_⟩
    rw [hi, number_eq_toNat, LittleEndian.toInt_unpackInt32]
  · rintro ⟨j, rfl, rfl⟩
    refine ⟨LittleEndian.length_packInt32 j, ?_⟩
    rw [number_eq_toNat, ← LittleEndian.toInt_unpackInt32, LittleEndian.unpackInt32_packInt32]

theorem signed_eight_iff {c : List UInt8} {i : Int} :
    Signed 8 c i ↔ ∃ j : Int64, c = LittleEndian.packInt64 j ∧ i = j.toInt := by
  constructor
  · rintro ⟨hlen, hi⟩
    refine ⟨LittleEndian.unpackInt64 c, (LittleEndian.packInt64_unpackInt64 hlen).symm, ?_⟩
    rw [hi, number_eq_toNat, LittleEndian.toInt_unpackInt64]
  · rintro ⟨j, rfl, rfl⟩
    refine ⟨LittleEndian.length_packInt64 j, ?_⟩
    rw [number_eq_toNat, ← LittleEndian.toInt_unpackInt64, LittleEndian.unpackInt64_packInt64]

/-- An integer is packed into four or eight bytes. -/
theorem integer_iff {c : List UInt8} {i : Int} :
    Integer c i ↔
      (∃ j : Int32, c = Tag.int32.byte :: LittleEndian.packInt32 j ∧ i = j.toInt) ∨
      ∃ j : Int64, c = Tag.int64.byte :: LittleEndian.packInt64 j ∧ i = j.toInt := by
  constructor
  · intro h
    cases h with
    | int32 h =>
        obtain ⟨j, rfl, hj⟩ := signed_four_iff.mp h
        exact .inl ⟨j, rfl, hj⟩
    | int64 h =>
        obtain ⟨j, rfl, hj⟩ := signed_eight_iff.mp h
        exact .inr ⟨j, rfl, hj⟩
  · rintro (⟨j, rfl, hj⟩ | ⟨j, rfl, hj⟩)
    · exact .int32 (signed_four_iff.mpr ⟨j, rfl, hj⟩)
    · exact .int64 (signed_eight_iff.mpr ⟨j, rfl, hj⟩)

theorem eq_packBinary64_iff {c : List UInt8} {x : Binary64} :
    c = LittleEndian.packBinary64 x ↔
      c.length = 8 ∧ x.bits.toNat = number c := by
  rw [number_eq_toNat]
  constructor
  · rintro rfl
    exact ⟨LittleEndian.length_packBinary64 x, (LittleEndian.toNat_packBinary64 x).symm⟩
  · rintro ⟨hlen, hbits⟩
    rw [LittleEndian.packBinary64, hbits, ← hlen, LittleEndian.ofNat_toNat]

/-! ## First bytes -/

/-- The tag of a text says how it goes on. -/
theorem text_cons_iff {b : UInt8} {c : List UInt8} {s : String} :
    Text (b :: c) s ↔
      (b = Tag.char.byte ∧ ∃ x < 0x80, c = [x] ∧ s = String.singleton (Char.ofUInt8 x)) ∨
      (b = Tag.string.byte ∧
        ∃ header, Integer header (s.toList.flatMap String.utf8EncodeChar).length ∧
          c = header ++ s.toList.flatMap String.utf8EncodeChar) := by
  constructor
  · intro h
    cases h with
    | char x hx => exact .inl ⟨rfl, x, hx, rfl, rfl⟩
    | string s hlength => exact .inr ⟨rfl, _, hlength, rfl⟩
  · rintro (⟨rfl, x, hx, rfl, rfl⟩ | ⟨rfl, header, hlength, rfl⟩)
    · exact .char x hx
    · exact .string s hlength

/-- What follows the tag of a value without parts, and what value it gives. -/
def ScalarTail : Tag → List UInt8 → Value → Prop
  | .null, c, v => c = [] ∧ v = .null
  | .true, c, v => c = [] ∧ v = .bool true
  | .false, c, v => c = [] ∧ v = .bool false
  | .int32, c, v => ∃ i, c = LittleEndian.packInt32 i ∧ v = .int i.toInt64
  | .int64, c, v => ∃ i, c = LittleEndian.packInt64 i ∧ v = .int i
  | .float64, c, v => ∃ x, c = LittleEndian.packBinary64 x ∧ v = .float x
  | .char, c, v => ∃ s, Text (Tag.char.byte :: c) s ∧ v = .text s
  | .string, c, v => ∃ s, Text (Tag.string.byte :: c) s ∧ v = .text s
  | _, _, _ => False

theorem scalar_cons_iff {b : UInt8} {c : List UInt8} {v : Value} :
    Scalar (b :: c) v ↔ ∃ t : Tag, b = t.byte ∧ ScalarTail t c v := by
  constructor
  · intro h
    cases h with
    | null => exact ⟨.null, rfl, rfl, rfl⟩
    | true => exact ⟨.true, rfl, rfl, rfl⟩
    | false => exact ⟨.false, rfl, rfl, rfl⟩
    | @int _ i h =>
        rcases integer_iff.mp h with ⟨j, hc, hj⟩ | ⟨j, hc, hj⟩
        · obtain ⟨rfl, rfl⟩ := List.cons.inj hc
          rw [← Int32.toInt_toInt64, Int64.toInt_inj] at hj
          exact ⟨.int32, rfl, j, rfl, congrArg Value.int hj⟩
        · obtain ⟨rfl, rfl⟩ := List.cons.inj hc
          exact ⟨.int64, rfl, j, rfl, congrArg Value.int (Int64.toInt_inj.mp hj)⟩
    | @float _ x hlen hbits =>
        exact ⟨.float64, rfl, x, eq_packBinary64_iff.mpr ⟨hlen, hbits⟩, rfl⟩
    | @text _ s h =>
        rcases text_cons_iff.mp h with ⟨rfl, -⟩ | ⟨rfl, -⟩
        · exact ⟨.char, rfl, s, h, rfl⟩
        · exact ⟨.string, rfl, s, h, rfl⟩
  · rintro ⟨t, rfl, h⟩
    cases t with
    | null =>
        obtain ⟨rfl, rfl⟩ := h
        exact .null
    | true =>
        obtain ⟨rfl, rfl⟩ := h
        exact .true
    | false =>
        obtain ⟨rfl, rfl⟩ := h
        exact .false
    | int32 =>
        obtain ⟨j, rfl, rfl⟩ := h
        exact .int (integer_iff.mpr (.inl ⟨j, rfl, Int32.toInt_toInt64 j⟩))
    | int64 =>
        obtain ⟨j, rfl, rfl⟩ := h
        exact .int (integer_iff.mpr (.inr ⟨j, rfl, rfl⟩))
    | float64 =>
        obtain ⟨x, hc, rfl⟩ := h
        obtain ⟨hlen, hbits⟩ := eq_packBinary64_iff.mp hc
        exact .float hlen hbits
    | char | string =>
        obtain ⟨s, htext, rfl⟩ := h
        exact .text htext
    | objectStart | objectEnd | arrayStart | arrayEnd => exact h.elim

theorem scalar_tag_cons_iff {t : Tag} {c : List UInt8} {v : Value} :
    Scalar (t.byte :: c) v ↔ ScalarTail t c v := by
  rw [scalar_cons_iff]
  constructor
  · rintro ⟨u, hu, h⟩
    rwa [Tag.byte_inj.mp hu]
  · intro h
    exact ⟨t, rfl, h⟩

theorem Scalar.ne_nil {c : List UInt8} {v : Value} (h : Scalar c v) : c ≠ [] := by
  rintro rfl
  cases h with
  | int h => cases h
  | text h => cases h

end Grammar

end EcmaTree
