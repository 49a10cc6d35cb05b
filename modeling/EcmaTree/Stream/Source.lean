import EcmaTree.Stream.Fault

/-!
# Sources

A source gives bytes.  Faults lie at fixed offsets in its data: the bytes before
a fault are read as usual, and the next attempt to read meets the fault, once.
`Source.take` reads a given number of bytes and goes on after interruptions.
-/

namespace EcmaTree

/-- A source of bytes and the faults that lie ahead. -/
structure Source where
  /-- The bytes not yet read. -/
  unread : List UInt8
  /-- The number of bytes read. -/
  position : Nat := 0
  /-- The faults ahead with their offsets, in order. -/
  faults : List (Nat × Fault) := []
  deriving DecidableEq, Repr

namespace Source

/-- Reads `n` bytes where no fault is in the way; if there are fewer, all of
them are lost. -/
def takePlain (s : Source) (n : Nat) : Except Fault (List UInt8) × Source :=
  let bytes := s.unread.take n
  if bytes.length = n then
    (.ok bytes, ⟨s.unread.drop n, s.position + n, s.faults⟩)
  else
    (.error .endOfData, ⟨[], s.position + bytes.length, s.faults⟩)

/--
Reads `n` bytes past the given faults.

No fault is met when the bytes wanted, or the data, end before it.  After an
interruption reading goes on; after another fault the bytes read up to it are
lost.
-/
def takePast (n : Nat) (unread : List UInt8) (position : Nat) :
    List (Nat × Fault) → Except Fault (List UInt8) × Source
  | [] => takePlain ⟨unread, position, []⟩ n
  | (offset, fault) :: faults =>
    let room := offset - position
    if n ≤ room then takePlain ⟨unread, position, (offset, fault) :: faults⟩ n
    else
      let bytes := unread.take room
      if bytes.length < room then takePlain ⟨unread, position, (offset, fault) :: faults⟩ n
      else if fault.kind = .interrupted then
        match takePast (n - room) (unread.drop room) (position + room) faults with
        | (.ok more, s) => (.ok (bytes ++ more), s)
        | (.error f, s) => (.error f, s)
      else (.error fault, ⟨unread.drop room, position + room, faults⟩)

def take (s : Source) (n : Nat) : Except Fault (List UInt8) × Source :=
  takePast n s.unread s.position s.faults

theorem takePlain_unread_of_ok {s s' : Source} {n : Nat} {bytes : List UInt8}
    (h : s.takePlain n = (.ok bytes, s')) :
    s'.unread.length + n = s.unread.length := by
  simp only [takePlain] at h
  split at h
  next hlen =>
    cases h
    simp only [List.length_take, List.length_drop] at hlen ⊢
    omega
  · cases h

theorem takePlain_unread_le (s : Source) (n : Nat) :
    (s.takePlain n).2.unread.length ≤ s.unread.length := by
  simp only [takePlain]
  split <;> simp

theorem takePast_unread_of_ok {faults : List (Nat × Fault)} :
    ∀ {n : Nat} {unread : List UInt8} {position : Nat} {bytes : List UInt8} {s' : Source},
      takePast n unread position faults = (.ok bytes, s') →
        s'.unread.length + n = unread.length := by
  induction faults with
  | nil =>
    intro n unread position bytes s' h
    simpa using takePlain_unread_of_ok h
  | cons head faults ih =>
    obtain ⟨offset, fault⟩ := head
    intro n unread position bytes s' h
    simp only [takePast] at h
    split at h
    · simpa using takePlain_unread_of_ok h
    next hroom =>
      split at h
      · simpa using takePlain_unread_of_ok h
      next hlen =>
        split at h
        · split at h
          next more s hmore =>
            cases h
            have hrec := ih hmore
            simp only [List.length_take, List.length_drop] at hlen hrec
            omega
          · cases h
        · cases h

theorem takePast_unread_le {faults : List (Nat × Fault)} :
    ∀ (n : Nat) (unread : List UInt8) (position : Nat),
      (takePast n unread position faults).2.unread.length ≤ unread.length := by
  induction faults with
  | nil =>
    intro n unread position
    exact takePlain_unread_le ⟨unread, position, []⟩ n
  | cons head faults ih =>
    obtain ⟨offset, fault⟩ := head
    intro n unread position
    simp only [takePast]
    split
    · exact takePlain_unread_le _ n
    · split
      · exact takePlain_unread_le _ n
      · split
        · -- Both outcomes of the rest of the read leave its source.
          have hrest := Nat.le_trans
            (ih (n - (offset - position)) (unread.drop (offset - position))
              (position + (offset - position)))
            (List.drop_sublist _ _).length_le
          split
          next more s hmore => simpa only [hmore] using hrest
          next f s hfault => simpa only [hfault] using hrest
        · exact (List.drop_sublist _ _).length_le

/-- A successful read takes exactly the bytes asked for. -/
theorem take_unread_of_ok {s s' : Source} {n : Nat} {bytes : List UInt8}
    (h : s.take n = (.ok bytes, s')) :
    s'.unread.length + n = s.unread.length :=
  takePast_unread_of_ok h

/-- No read gives bytes back. -/
theorem take_unread_le (s : Source) (n : Nat) :
    (s.take n).2.unread.length ≤ s.unread.length :=
  takePast_unread_le n s.unread s.position

end Source

end EcmaTree
