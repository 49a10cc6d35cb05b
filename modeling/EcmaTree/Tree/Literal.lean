import EcmaTree.Event

/-!
# Values of literals and templates

The value of a literal is written as one event, except for a regular expression,
which is written as an object.  A number is written as an integer if it is one
that the integers of the stream can hold, and as a double otherwise.
-/

namespace EcmaTree

inductive LiteralValue where
  | null
  | bool (b : Bool)
  | number (x : Binary64)
  | text (s : String)
  | regExp (pattern flags : String)
  deriving DecidableEq, Repr

namespace LiteralValue

/-- Equality of literals in which numbers are compared numerically. -/
def eq : LiteralValue → LiteralValue → Bool
  | .null, .null => true
  | .bool a, .bool b => a == b
  | .number x, .number y => x.eq y
  | .text s, .text t => s == t
  | .regExp p f, .regExp q g => p == q && f == g
  | _, _ => false

/-- Whether a number may be written as the integer that it is truncated to:
nothing was lost, the sign is that of an integer, which rules out negative zero,
and the absolute value is below `2 ^ 63`. -/
def isInteger (x : Binary64) : Bool :=
  (Binary64.ofInt64 x.toInt64).eq x && (!x.isNegative == decide (0 ≤ x.toInt64.toInt)) &&
    decide (x.magnitude < (1023 + 63) <<< 52)

def numberEvent (x : Binary64) : Event :=
  if isInteger x then .int x.toInt64 else .float x

def eventsThen : LiteralValue → List Event → List Event
  | .null, rest => .null :: rest
  | .bool b, rest => .bool b :: rest
  | .number x, rest => numberEvent x :: rest
  | .text s, rest => .text s :: rest
  | .regExp pattern flags, rest =>
    .start .object :: .member "pattern" :: .text pattern :: .member "flags" :: .text flags ::
      .finish .object :: rest

end LiteralValue

/-- The text of a piece of a template. -/
structure TemplateValue where
  /-- The text after its escape sequences are resolved, unless one of them is invalid. -/
  cooked : Option String
  /-- The text as it stands in the program. -/
  raw : String
  deriving DecidableEq, Repr

def TemplateValue.eventsThen (t : TemplateValue) (rest : List Event) : List Event :=
  .start .object :: .member "cooked" :: Event.ofText? t.cooked :: .member "raw" :: .text t.raw ::
    .finish .object :: rest

end EcmaTree
