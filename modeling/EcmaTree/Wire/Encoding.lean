import EcmaTree.Bytes.LittleEndian
import EcmaTree.Event
import EcmaTree.Text.Utf8
import EcmaTree.Wire.Tag

/-!
# The encoding of events

An event is laid out as pieces, each a run of bytes at an offset, within a
stretch of `Event.size` bytes. Put one after another the pieces are the encoding
of the event.

Integers take a tag and four bytes, or eight if four do not suffice.  Finite
doubles take a tag and eight bytes, and all others are null.  A text of one byte
follows its tag directly; any other text follows its length in bytes, which is
itself an integer with its tag.  Member names are encoded as texts.
-/

namespace EcmaTree

/-- A run of bytes at an offset. -/
structure Piece where
  offset : Nat
  bytes : List UInt8
  deriving DecidableEq, Repr

namespace Encoding

def fitsInt32 (i : Int64) : Bool :=
  Int32.minValue.toInt ≤ i.toInt && i.toInt ≤ Int32.maxValue.toInt

/-- The number of bytes of an integer with its tag. -/
def integerSize (i : Int64) : Nat :=
  if fitsInt32 i then 5 else 9

/-- An integer with its tag. -/
def integerPieces (offset : Nat) (i : Int64) : List Piece :=
  if integerSize i = 5 then
    [⟨offset, [Tag.int32.byte]⟩, ⟨offset + 1, LittleEndian.packInt32 i.toInt32⟩]
  else
    [⟨offset, [Tag.int64.byte]⟩, ⟨offset + 1, LittleEndian.packInt64 i⟩]

/-- The length of a text as it is written on the wire. -/
def textLength (data : List UInt8) : Int64 :=
  Int64.ofNat data.length

/-- The number of bytes of a text of the given bytes with its tag and length. -/
def textSize (data : List UInt8) : Nat :=
  match data with
  | [_] => 2
  | _ => 1 + integerSize (textLength data) + data.length

/-- A text of the given bytes with its tag and length. -/
def textPieces (data : List UInt8) : List Piece :=
  match data with
  | [_] => [⟨0, [Tag.char.byte]⟩, ⟨1, data⟩]
  | _ =>
    let length := textLength data
    ⟨0, [Tag.string.byte]⟩ :: integerPieces 1 length ++ [⟨1 + integerSize length, data⟩]

def tagPieces (t : Tag) : List Piece :=
  [⟨0, [t.byte]⟩]

theorem integerPieces_within (offset : Nat) (i : Int64) :
    ∀ p ∈ integerPieces offset i, p.offset + p.bytes.length ≤ offset + integerSize i := by
  unfold integerPieces integerSize
  by_cases hfits : fitsInt32 i
  · simp [hfits]
  · simp [hfits]

theorem textPieces_within (data : List UInt8) :
    ∀ p ∈ textPieces data, p.offset + p.bytes.length ≤ textSize data := by
  unfold textPieces textSize
  split
  · simp
  · intro p hp
    simp only [List.cons_append, List.mem_cons, List.mem_append, List.not_mem_nil, or_false] at hp
    obtain rfl | hlength | rfl := hp
    · simp only [List.length_singleton]
      omega
    · have hwithin := integerPieces_within 1 (textLength data) p hlength
      omega
    · exact Nat.le_refl _

end Encoding

def Container.startTag : Container → Tag
  | .array => .arrayStart
  | .object => .objectStart

def Container.endTag : Container → Tag
  | .array => .arrayEnd
  | .object => .objectEnd

namespace Event

open Encoding

/-- The number of bytes of an event on the wire. -/
def size : Event → Nat
  | .int i => integerSize i
  | .float x => if x.isFinite then 9 else 1
  | .text s => textSize (Utf8.encode s)
  | .member name => textSize (Utf8.encode name)
  | _ => 1

/-- The layout of an event on the wire. -/
def pieces : Event → List Piece
  | .null => tagPieces .null
  | .bool b => tagPieces (if b then .true else .false)
  | .int i => integerPieces 0 i
  | .float x =>
    if x.isFinite then [⟨0, [Tag.float64.byte]⟩, ⟨1, LittleEndian.packBinary64 x⟩]
    else tagPieces .null
  | .text s => textPieces (Utf8.encode s)
  | .start c => tagPieces c.startTag
  | .finish c => tagPieces c.endTag
  | .member name => textPieces (Utf8.encode name)

/-- The bytes of an event on the wire. -/
def encoding (e : Event) : List UInt8 :=
  e.pieces.flatMap Piece.bytes

/-- The pieces of an event stay within the bytes that it takes. -/
theorem pieces_within (e : Event) : ∀ p ∈ e.pieces, p.offset + p.bytes.length ≤ e.size := by
  cases e with
  | int i =>
    intro p hp
    have hwithin := integerPieces_within 0 i p hp
    rwa [Nat.zero_add] at hwithin
  | float x =>
    rw [pieces, size]
    split
    · simp
    · simp [tagPieces]
  | text s => exact textPieces_within _
  | member name => exact textPieces_within _
  | _ => simp [pieces, tagPieces, size]

end Event

end EcmaTree
