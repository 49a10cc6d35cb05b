import EcmaTree.Data.Json
import EcmaTree.Event

/-!
# The events of a JSON document

The document is spelled out as it stands, without a detour through
`Value.ofJson`.
-/

namespace EcmaTree

variable {ν : Type} [JsonNumber ν]

/-- A number as an event: an integer if it fits, and a double otherwise. -/
def JsonNumber.event (n : ν) : Event :=
  match toInt64? n with
  | some i => .int i
  | none => .float ((toBinary64? n).getD .nan)

namespace Json

mutual

/-- The events of a document, and then `rest`. -/
def eventsThen : Json ν → List Event → List Event
  | .null, rest => .null :: rest
  | .bool b, rest => .bool b :: rest
  | .number n, rest => JsonNumber.event n :: rest
  | .text s, rest => .text s :: rest
  | .array items, rest => .start .array :: itemsThen items (.finish .array :: rest)
  | .object members, rest => .start .object :: membersThen members (.finish .object :: rest)

def itemsThen : List (Json ν) → List Event → List Event
  | [], rest => rest
  | j :: js, rest => j.eventsThen (itemsThen js rest)

def membersThen : List (String × Json ν) → List Event → List Event
  | [], rest => rest
  | (name, j) :: members, rest => .member name :: j.eventsThen (membersThen members rest)

end

def events (j : Json ν) : List Event :=
  j.eventsThen []

end Json

end EcmaTree
