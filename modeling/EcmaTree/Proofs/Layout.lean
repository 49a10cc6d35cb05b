import EcmaTree.Proofs.Packing
import EcmaTree.Wire.Scratch

/-!
# Events in the scratch buffer

The pieces of an event lie next to each other from the start of the buffer on,
and they fill exactly the stretch that the event claims.  What an event leaves
in that stretch is therefore its encoding, whatever the buffer held before.
-/

namespace EcmaTree

/-! ## Adjacent pieces -/

/-- Pieces that lie next to each other from an offset on. -/
def Piece.Adjacent : Nat → List Piece → Prop
  | _, [] => True
  | offset, p :: ps => p.offset = offset ∧ Piece.Adjacent (offset + p.bytes.length) ps

theorem Piece.Adjacent.append
    {offset : Nat} {ps qs : List Piece}
    (hps : Adjacent offset ps)
    (hqs : Adjacent (offset + (ps.flatMap bytes).length) qs) :
    Adjacent offset (ps ++ qs) := by
  induction ps generalizing offset with
  | nil => simpa using hqs
  | cons p ps ih =>
      refine ⟨hps.1, ih hps.2 ?_⟩
      rw [List.flatMap_cons, List.length_append, ← Nat.add_assoc] at hqs
      exact hqs

namespace Scratch

theorem take_put
    {s : Scratch} {p : Piece} (h : p.offset + p.bytes.length ≤ s.size) :
    (s.put p h).bytes.take (p.offset + p.bytes.length) =
      s.bytes.take p.offset ++ p.bytes := by
  have hlen : (s.bytes.take p.offset ++ p.bytes).length = p.offset + p.bytes.length := by
    rw [List.length_append, List.length_take_of_le (Nat.le_of_add_right_le h)]
  rw [put, ← hlen, List.take_left]

/-- Adjacent pieces leave what lies before them and stand there in order. -/
theorem take_putAll
    {offset : Nat} {ps : List Piece} (hps : Piece.Adjacent offset ps)
    {s : Scratch} (h : ∀ p ∈ ps, p.offset + p.bytes.length ≤ s.size) :
    (s.putAll ps h).bytes.take (offset + (ps.flatMap Piece.bytes).length) =
      s.bytes.take offset ++ ps.flatMap Piece.bytes := by
  induction ps generalizing offset s with
  | nil => simp [putAll]
  | cons p ps ih =>
      obtain ⟨rfl, hrest⟩ := hps
      rw [putAll, List.flatMap_cons, List.length_append, ← Nat.add_assoc, ih hrest, take_put,
        List.append_assoc]

end Scratch

/-! ## The layout of an event -/

namespace Encoding

/-- The bytes of an integer with its tag. -/
def integerBytes (i : Int64) : List UInt8 :=
  if fitsInt32 i then Tag.int32.byte :: LittleEndian.packInt32 i.toInt32
  else Tag.int64.byte :: LittleEndian.packInt64 i

/-- The bytes of a text of the given bytes with its tag and length. -/
def textBytes (data : List UInt8) : List UInt8 :=
  match data with
  | [b] => [Tag.char.byte, b]
  | _ => Tag.string.byte :: integerBytes (textLength data) ++ data

theorem textBytes_of_ne_singleton
    {data : List UInt8} (h : ∀ b, data ≠ [b]) :
    textBytes data = Tag.string.byte :: (integerBytes (textLength data) ++ data) := by
  unfold textBytes
  split
  next b => exact absurd rfl (h b)
  · rfl

theorem integerSize_eq_five_iff {i : Int64} :
    integerSize i = 5 ↔ fitsInt32 i = true := by
  unfold integerSize
  split <;> simp_all

theorem length_integerBytes (i : Int64) :
    (integerBytes i).length = integerSize i := by
  unfold integerBytes integerSize
  split <;> simp

theorem length_textBytes (data : List UInt8) :
    (textBytes data).length = textSize data := by
  unfold textBytes textSize
  split
  · rfl
  · simp only [List.length_cons, List.length_append, length_integerBytes]
    omega

theorem integerPieces_bytes (offset : Nat) (i : Int64) :
    (integerPieces offset i).flatMap Piece.bytes = integerBytes i := by
  unfold integerPieces integerBytes
  simp only [integerSize_eq_five_iff]
  split <;> simp

theorem integerPieces_adjacent (offset : Nat) (i : Int64) :
    Piece.Adjacent offset (integerPieces offset i) := by
  unfold integerPieces
  split <;> simp [Piece.Adjacent]

theorem textPieces_bytes (data : List UInt8) :
    (textPieces data).flatMap Piece.bytes = textBytes data := by
  unfold textPieces textBytes
  split
  · rfl
  · simp [integerPieces_bytes]

theorem textPieces_adjacent (data : List UInt8) :
    Piece.Adjacent 0 (textPieces data) := by
  unfold textPieces
  split
  · simp [Piece.Adjacent]
  · refine ⟨rfl, (integerPieces_adjacent 1 _).append ?_⟩
    rw [integerPieces_bytes, length_integerBytes]
    exact ⟨rfl, trivial⟩

end Encoding

namespace Event

open Encoding

theorem encoding_int (i : Int64) :
    (Event.int i).encoding = integerBytes i :=
  integerPieces_bytes 0 i

theorem encoding_text (s : String) :
    (Event.text s).encoding = textBytes (Utf8.encode s) :=
  textPieces_bytes _

theorem encoding_member (name : String) :
    (Event.member name).encoding = textBytes (Utf8.encode name) :=
  textPieces_bytes _

theorem pieces_adjacent (e : Event) : Piece.Adjacent 0 e.pieces := by
  cases e with
  | null | bool | start | finish => exact ⟨rfl, trivial⟩
  | int i => exact integerPieces_adjacent 0 i
  | float x =>
      rw [pieces]
      split <;> simp [Piece.Adjacent, tagPieces]
  | text s => exact textPieces_adjacent _
  | member name => exact textPieces_adjacent _

theorem length_encoding (e : Event) : e.encoding.length = e.size := by
  cases e with
  | null | bool | start | finish => rfl
  | int i => rw [encoding_int, length_integerBytes, size]
  | float x =>
      rw [encoding, pieces, size]
      split <;> simp [tagPieces]
  | text s => rw [encoding_text, length_textBytes, size]
  | member name => rw [encoding_member, length_textBytes, size]

end Event

/-- The stretch of an event holds its encoding. -/
theorem Scratch.take_fill (s : Scratch) (e : Event) :
    (s.fill e).bytes.take e.size = e.encoding := by
  calc
    (s.fill e).bytes.take e.size =
        (s.fill e).bytes.take (0 + e.encoding.length) := by
      rw [Nat.zero_add, e.length_encoding]
    _ = (s.reserve e.size).bytes.take 0 ++ e.encoding :=
      take_putAll e.pieces_adjacent _
    _ = e.encoding := by simp

end EcmaTree
