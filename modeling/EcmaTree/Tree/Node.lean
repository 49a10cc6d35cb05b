import EcmaTree.Tree.Literal
import EcmaTree.Tree.Schema

/-!
# Syntax trees

A node of kind `k` has one value for each field that the schema lists for `k`,
of the type that the schema gives, and a child only where its slot admits it.
So a tree that can be built at all is well formed, and no function on trees has
to deal with missing fields or misplaced nodes.
-/

namespace EcmaTree

mutual

/-- A node of a given kind. -/
inductive Node : Kind → Type where
  | mk {k : Kind} (fields : Fields k.fields) : Node k

/-- A value for each of the given fields. -/
inductive Fields : List FieldSpec → Type where
  | nil : Fields []
  | cons {f : FieldSpec} {fs : List FieldSpec} (value : FieldValue f.type) (rest : Fields fs) :
      Fields (f :: fs)

/-- A value of a given type of field. -/
inductive FieldValue : FieldType → Type where
  | flag (b : Bool) : FieldValue .flag
  | text (s : String) : FieldValue .text
  | optionalText (s : Option String) : FieldValue .optionalText
  | literal (v : LiteralValue) : FieldValue .literal
  | template (t : TemplateValue) : FieldValue .template
  | word {v : Vocabulary} (w : v.Entry) : FieldValue (.word v)
  | one {s : Slot} (child : Occupant s) : FieldValue (.one s)
  | absent {s : Slot} : FieldValue (.maybe s)
  | present {s : Slot} (child : Occupant s) : FieldValue (.maybe s)
  | many {s : Slot} (items : Items false s) : FieldValue (.many s)
  | holes {s : Slot} (items : Items true s) : FieldValue (.holes s)

/-- A list of nodes that a slot admits, with gaps only if the mark is set. -/
inductive Items : Bool → Slot → Type where
  | nil {g : Bool} {s : Slot} : Items g s
  | cons {g : Bool} {s : Slot} (child : Occupant s) (rest : Items g s) : Items g s
  | hole {s : Slot} (rest : Items true s) : Items true s

/-- A node that a slot admits. -/
inductive Occupant : Slot → Type where
  | mk {s : Slot} {k : Kind} (fits : s.admits k = true) (node : Node k) : Occupant s

end

/-- A node together with its kind. -/
structure AnyNode where
  {kind : Kind}
  node : Node kind

namespace Node

def fields {k : Kind} : Node k → Fields k.fields
  | .mk fields => fields

end Node

def Occupant.toAnyNode {s : Slot} : Occupant s → AnyNode
  | .mk _ node => ⟨node⟩

/-- A node as the occupant of a slot, if the slot admits it. -/
def AnyNode.occupy? (n : AnyNode) (s : Slot) : Option (Occupant s) :=
  if fits : s.admits n.kind = true then some (.mk fits n.node) else none

/-- An occupant of a slot as that of a slot that admits as much. -/
def Occupant.widen {s t : Slot} (h : ∀ k, s.admits k = true → t.admits k = true) :
    Occupant s → Occupant t
  | .mk fits node => .mk (h _ fits) node

/-- The items of a list of nodes, with nothing in the place of gaps. -/
def Items.toList {g : Bool} {s : Slot} : Items g s → List (Option AnyNode)
  | .nil => []
  | .cons child rest => some child.toAnyNode :: rest.toList
  | .hole rest => none :: rest.toList

/-- The nodes that a field holds; a field that may be empty and is has no place
for one. -/
def FieldValue.contents {t : FieldType} : FieldValue t → List (Option AnyNode)
  | .one child => [some child.toAnyNode]
  | .present child => [some child.toAnyNode]
  | .many items => items.toList
  | .holes items => items.toList
  | _ => []

/-- The value of the field of a given name. -/
def Fields.find? (name : String) {fs : List FieldSpec} :
    Fields fs → Option ((t : FieldType) × FieldValue t)
  | .nil => none
  | .cons (f := f) value rest => if f.name = name then some ⟨f.type, value⟩ else rest.find? name

/-- What the field of a given name holds. -/
def Fields.contentsOf {fs : List FieldSpec} (fields : Fields fs) (name : String) :
    List (Option AnyNode) :=
  match fields.find? name with
  | some ⟨_, value⟩ => value.contents
  | none => []

mutual

/-- Equality of nodes in which numbers are compared numerically. -/
def Node.eq {k l : Kind} : Node k → Node l → Bool
  | .mk fields, .mk fields' => k == l && fields.eq fields'
termination_by structural node => node

def Fields.eq {fs gs : List FieldSpec} : Fields fs → Fields gs → Bool
  | .nil, .nil => true
  | .cons value rest, .cons value' rest' => value.eq value' && rest.eq rest'
  | _, _ => false
termination_by structural fields => fields

def FieldValue.eq {t u : FieldType} : FieldValue t → FieldValue u → Bool
  | .flag b, .flag b' => b == b'
  | .text s, .text s' => s == s'
  | .optionalText s, .optionalText s' => s == s'
  | .literal v, .literal v' => v.eq v'
  | .template v, .template v' => v == v'
  | .word (v := v) w, .word (v := v') w' => v == v' && Word.text w == Word.text w'
  | .one child, .one child' => child.eq child'
  | .absent, .absent => true
  | .present child, .present child' => child.eq child'
  | .many items, .many items' => items.eq items'
  | .holes items, .holes items' => items.eq items'
  | _, _ => false
termination_by structural value => value

def Items.eq {g g' : Bool} {s s' : Slot} : Items g s → Items g' s' → Bool
  | .nil, .nil => true
  | .cons child rest, .cons child' rest' => child.eq child' && rest.eq rest'
  | .hole rest, .hole rest' => rest.eq rest'
  | _, _ => false
termination_by structural items => items

def Occupant.eq {s s' : Slot} : Occupant s → Occupant s' → Bool
  | .mk _ node, .mk _ node' => node.eq node'
termination_by structural child => child

end

def AnyNode.eq (m n : AnyNode) : Bool :=
  m.node.eq n.node

end EcmaTree
