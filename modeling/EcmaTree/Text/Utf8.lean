/-!
# UTF-8 text in byte form

`Utf8.encode` gives the bytes of a text and `Utf8.decode` the text that given
bytes spell, or where they fail to spell one.  A failure names the length of the
longest well-formed beginning and, unless the bytes merely end too early, the
number of bytes after it that could still have begun a character.
-/

namespace EcmaTree.Utf8

/-- How bytes fail to be UTF-8. -/
inductive Malformed where
  /-- The `length` bytes from `index` on begin a character that the next byte
  cannot continue, or the single byte at `index` begins none. -/
  | invalid (index length : Nat)
  /-- The bytes end inside the character that starts at `index`. -/
  | incomplete (index : Nat)
  deriving DecidableEq, Repr

def Malformed.message : Malformed → String
  | .invalid index length => s!"invalid utf-8 sequence of {length} bytes from index {index}"
  | .incomplete index => s!"incomplete utf-8 byte sequence from index {index}"

/-- A character of which some bytes have been seen and some are still owed. -/
structure Partial where
  /-- The index of the first byte. -/
  start : Nat
  /-- The number of bytes seen. -/
  seen : Nat
  /-- The number of bytes that have to follow. -/
  owed : Nat
  /-- The least byte that may come next. -/
  low : UInt8
  /-- The greatest byte that may come next. -/
  high : UInt8

/--
What a first byte begins: the number of bytes that have to follow it, and the
range of the first of these.

The ranges that are not `80` to `bf` shut out overlong forms, surrogates and
numbers above `10ffff`.
-/
def lead (b : UInt8) : Option (Nat × UInt8 × UInt8) :=
  if b < 0x80 then some (0, 0x80, 0xBF)
  else if b < 0xC2 then none
  else if b < 0xE0 then some (1, 0x80, 0xBF)
  else if b = 0xE0 then some (2, 0xA0, 0xBF)
  else if b = 0xED then some (2, 0x80, 0x9F)
  else if b < 0xF0 then some (2, 0x80, 0xBF)
  else if b = 0xF0 then some (3, 0x90, 0xBF)
  else if b < 0xF4 then some (3, 0x80, 0xBF)
  else if b = 0xF4 then some (3, 0x80, 0x8F)
  else none

/-- Finds the first failure in bytes that are not UTF-8, from `index` on and
inside `pending` if any. -/
def locate (index : Nat) (pending : Option Partial) : List UInt8 → Malformed
  | [] => .incomplete ((pending.map Partial.start).getD index)
  | b :: bs =>
    match pending with
    | none =>
      match lead b with
      | none => .invalid index 1
      | some (0, _, _) => locate (index + 1) none bs
      | some (owed, low, high) => locate (index + 1) (some ⟨index, 1, owed, low, high⟩) bs
    | some p =>
      if b < p.low || p.high < b then .invalid p.start p.seen
      else if p.owed ≤ 1 then locate (index + 1) none bs
      else locate (index + 1) (some ⟨p.start, p.seen + 1, p.owed - 1, 0x80, 0xBF⟩) bs

def encode (s : String) : List UInt8 :=
  s.toUTF8.data.toList

def decode (bs : List UInt8) : Except Malformed String :=
  match String.fromUTF8? ⟨bs.toArray⟩ with
  | some s => .ok s
  | none => .error (locate 0 none bs)

end EcmaTree.Utf8
