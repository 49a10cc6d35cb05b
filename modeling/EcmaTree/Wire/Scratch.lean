import EcmaTree.Wire.Encoding

/-!
# The scratch buffer

Events are laid out in a buffer that is reused from one event to the next.  It
grows on demand, by at least `Scratch.chunk` bytes at a time, is never cleared
and never shrinks.

A piece can be put only where it lies within the buffer, and putting it does not
change the size.  So all pieces of an event can be put once there is room for
the event.
-/

namespace EcmaTree

/-- A buffer in which events are laid out. -/
structure Scratch where
  bytes : List UInt8 := []
  deriving DecidableEq, Repr, Inhabited

namespace Scratch

/-- The least number of bytes by which a buffer grows. -/
def chunk : Nat := 256

def size (s : Scratch) : Nat :=
  s.bytes.length

/-- Makes a buffer hold at least `n` bytes; new bytes are zero. -/
def reserve (s : Scratch) (n : Nat) : Scratch :=
  if s.size < n then ⟨s.bytes ++ List.replicate (max n (s.size + chunk) - s.size) 0⟩ else s

theorem size_reserve (s : Scratch) (n : Nat) :
    (s.reserve n).size = if s.size < n then max n (s.size + chunk) else s.size := by
  rw [reserve]
  by_cases hroom : s.size < n
  · rw [if_pos hroom, if_pos hroom, size, List.length_append, List.length_replicate]
    show s.size + (max n (s.size + chunk) - s.size) = max n (s.size + chunk)
    omega
  · rw [if_neg hroom, if_neg hroom]

theorem le_size_reserve (s : Scratch) (n : Nat) : n ≤ (s.reserve n).size := by
  rw [size_reserve]
  split
  · exact Nat.le_max_left _ _
  · omega

/-- Writes a piece over what stands in its place, which must lie within the buffer. -/
def put (s : Scratch) (p : Piece) (_ : p.offset + p.bytes.length ≤ s.size) : Scratch :=
  ⟨s.bytes.take p.offset ++ p.bytes ++ s.bytes.drop (p.offset + p.bytes.length)⟩

theorem size_put {s : Scratch} {p : Piece} (h : p.offset + p.bytes.length ≤ s.size) :
    (s.put p h).size = s.size := by
  simp only [size, put, List.length_append, List.length_take, List.length_drop] at h ⊢
  omega

def putAll (s : Scratch) :
    (ps : List Piece) → (∀ p ∈ ps, p.offset + p.bytes.length ≤ s.size) → Scratch
  | [], _ => s
  | p :: ps, h =>
    (s.put p (h p List.mem_cons_self)).putAll ps fun q hq => by
      rw [size_put]
      exact h q (List.mem_cons_of_mem p hq)

/-- Lays out an event at the start of a buffer, once there is room for it. -/
def fill (s : Scratch) (e : Event) : Scratch :=
  (s.reserve e.size).putAll e.pieces fun p hp =>
    Nat.le_trans (e.pieces_within p hp) (s.le_size_reserve e.size)

end Scratch

end EcmaTree
