import EcmaTree.Tree.Node

/-!
# The events of a syntax tree

A node is written as an object.  Its first member tells its kind, and the others
are its fields in the order of the schema.  An absent child and a gap in a list
are written as null; only a text that may be left out, and is, leaves no trace.
-/

namespace EcmaTree

mutual

/-- The events of a node, and then `rest`. -/
def Node.eventsThen {k : Kind} : Node k → List Event → List Event
  | .mk fields, rest =>
    .start .object :: .member "type" :: .text k.name ::
      fields.eventsThen (.finish .object :: rest)

def Fields.eventsThen {fs : List FieldSpec} : Fields fs → List Event → List Event
  | .nil, rest => rest
  | .cons (f := f) value fields, rest => value.memberThen f.name (fields.eventsThen rest)

/-- The events of a field of the given name, and then `rest`. -/
def FieldValue.memberThen {t : FieldType} (name : String) :
    FieldValue t → List Event → List Event
  | .flag b, rest => .member name :: .bool b :: rest
  | .text s, rest => .member name :: .text s :: rest
  | .optionalText none, rest => rest
  | .optionalText (some s), rest => .member name :: .text s :: rest
  | .literal v, rest => .member name :: v.eventsThen rest
  | .template v, rest => .member name :: v.eventsThen rest
  | .word w, rest => .member name :: .text (Word.text w) :: rest
  | .one child, rest => .member name :: child.eventsThen rest
  | .absent, rest => .member name :: .null :: rest
  | .present child, rest => .member name :: child.eventsThen rest
  | .many items, rest =>
    .member name :: .start .array :: items.eventsThen (.finish .array :: rest)
  | .holes items, rest =>
    .member name :: .start .array :: items.eventsThen (.finish .array :: rest)

def Items.eventsThen {g : Bool} {s : Slot} : Items g s → List Event → List Event
  | .nil, rest => rest
  | .cons child items, rest => child.eventsThen (items.eventsThen rest)
  | .hole items, rest => .null :: items.eventsThen rest

def Occupant.eventsThen {s : Slot} : Occupant s → List Event → List Event
  | .mk _ node, rest => node.eventsThen rest

end

def Node.events {k : Kind} (n : Node k) : List Event :=
  n.eventsThen []

def AnyNode.events (n : AnyNode) : List Event :=
  n.node.events

end EcmaTree
