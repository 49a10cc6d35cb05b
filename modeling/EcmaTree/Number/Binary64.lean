/-!
# Double precision numbers as bit patterns

A double is known here by its 64 bits, so that two numbers are the same
`Binary64` exactly when they agree bit for bit, signed zeros and the payloads of
NaNs included.  Comparison in the sense of arithmetic is the separate Boolean
function `Binary64.eq`.

The fields of the pattern are read off as natural numbers.  A finite number has
the exact value `± significand * 2 ^ (scale - 1075)`; truncation to an integer
and rounding of an integer are computed from that, without any rounding step in
between.
-/

namespace EcmaTree

/-- A double precision number, given by its bits. -/
structure Binary64 where
  /-- Sign, biased exponent and fraction, from the most significant bit down. -/
  bits : UInt64
  deriving DecidableEq, Repr, Inhabited

namespace Binary64

/-- The sign bit, set also for negative zero and for half of the NaNs. -/
def isNegative (x : Binary64) : Bool :=
  1 <<< 63 ≤ x.bits.toNat

/-- The bits below the sign bit, which order the numbers by absolute value. -/
def magnitude (x : Binary64) : Nat :=
  x.bits.toNat % 1 <<< 63

def biasedExponent (x : Binary64) : Nat :=
  x.magnitude >>> 52

def fraction (x : Binary64) : Nat :=
  x.magnitude % 1 <<< 52

/-- Neither an infinity nor a NaN. -/
def isFinite (x : Binary64) : Bool :=
  x.biasedExponent < 2047

/-- Every exponent bit is set, and so is some fraction bit. -/
def isNaN (x : Binary64) : Bool :=
  x.biasedExponent == 2047 && x.fraction != 0

/-- The NaN without a sign and with the first fraction bit alone. -/
def nan : Binary64 :=
  ⟨0x7FF8000000000000⟩

/-- Numerical equality: the two zeros are equal, and a NaN is equal to nothing. -/
def eq (x y : Binary64) : Bool :=
  !x.isNaN && !y.isNaN && (x.bits == y.bits || (x.magnitude == 0 && y.magnitude == 0))

/-- The integer whose product with `2 ^ (scale - 1075)` is the absolute value of
a finite number. -/
def significand (x : Binary64) : Nat :=
  if x.biasedExponent = 0 then x.fraction else 1 <<< 52 + x.fraction

/-- The exponent of a finite number, shifted by 1075 to be natural; subnormals
share the least one. -/
def scale (x : Binary64) : Nat :=
  max x.biasedExponent 1

/-- The absolute value without its fractional digits. -/
def truncatedMagnitude (x : Binary64) : Nat :=
  if 1075 ≤ x.scale then
    x.significand <<< (x.scale - 1075)
  else
    x.significand >>> (1075 - x.scale)

/-- The integer next to a number in the direction of zero. -/
def truncate (x : Binary64) : Int :=
  if x.isNegative then -(x.truncatedMagnitude : Int) else x.truncatedMagnitude

/-- The truncated number, held within the 64-bit range at either end; a NaN gives zero. -/
def toInt64 (x : Binary64) : Int64 :=
  if x.isNaN then 0
  else Int64.ofInt (max Int64.minValue.toInt (min Int64.maxValue.toInt x.truncate))

/-- The quotient of `n` by `2 ^ shift`, rounded to the nearest integer and to
the even one of two. -/
def roundShift (n shift : Nat) : Nat :=
  let quotient := n >>> shift
  let remainder := n % 1 <<< shift
  if 2 * remainder < 1 <<< shift then quotient
  else if 1 <<< shift < 2 * remainder then quotient + 1
  else quotient + quotient % 2

/-- The 53 leading bits of a positive number, rounded where it has more; rounding
may carry into a further bit. -/
def leadingBits (n : Nat) : Nat :=
  if n.log2 ≤ 52 then n <<< (52 - n.log2) else roundShift n (n.log2 - 52)

/--
The double nearest to a natural number below `2 ^ 64`, and the one with an even
significand of two.

When rounding reaches the next power of two, the carry out of the fraction
raises the exponent.
-/
def ofNat (n : Nat) : Binary64 :=
  if n = 0 then ⟨0⟩ else ⟨UInt64.ofNat ((1022 + n.log2) <<< 52 + leadingBits n)⟩

/-- The double with the same absolute value and the sign bit set. -/
def negative (x : Binary64) : Binary64 :=
  ⟨UInt64.ofNat (1 <<< 63 + x.magnitude)⟩

/-- The double nearest to a 64-bit integer, and the one with an even significand
of two. -/
def ofInt64 (i : Int64) : Binary64 :=
  if i.toInt < 0 then (ofNat i.toInt.natAbs).negative else ofNat i.toInt.natAbs

end Binary64

end EcmaTree
