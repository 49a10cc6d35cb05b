import EcmaTree.Data.Value
import EcmaTree.Event

/-!
# The events of a value

Each function takes the events that follow, so that spelling out a value is
linear in its size.
-/

namespace EcmaTree.Value

mutual

/-- The events of a value, and then `rest`. -/
def eventsThen : Value → List Event → List Event
  | .null, rest => .null :: rest
  | .bool b, rest => .bool b :: rest
  | .int i, rest => .int i :: rest
  | .float x, rest => .float x :: rest
  | .text s, rest => .text s :: rest
  | .array items, rest => .start .array :: itemsThen items (.finish .array :: rest)
  | .object members, rest => .start .object :: membersThen members (.finish .object :: rest)

def itemsThen : List Value → List Event → List Event
  | [], rest => rest
  | v :: vs, rest => v.eventsThen (itemsThen vs rest)

def membersThen : List (String × Value) → List Event → List Event
  | [], rest => rest
  | (name, v) :: members, rest => .member name :: v.eventsThen (membersThen members rest)

end

def events (v : Value) : List Event :=
  v.eventsThen []

end EcmaTree.Value
