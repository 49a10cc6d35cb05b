import EcmaTree.Proofs.Enumeration
import EcmaTree.Proofs.Values
import EcmaTree.Tree.Events

/-!
# Syntax trees as values

The events of a syntax tree are those of one value: a node is an object whose
first member is its kind, and its fields are the other members.  Each function
here follows the one that spells out the events, so the two agree case by case.
-/

namespace EcmaTree

/-! ## Leaves -/

/-- A number as a value: an integer if it may be written as one. -/
def LiteralValue.numberValue (x : Binary64) : Value :=
  if isInteger x then .int x.toInt64 else .float x

def LiteralValue.value : LiteralValue → Value
  | .null => .null
  | .bool b => .bool b
  | .number x => numberValue x
  | .text s => .text s
  | .regExp pattern flags => .object [("pattern", .text pattern), ("flags", .text flags)]

def Value.ofText? : Option String → Value
  | some s => .text s
  | none => .null

def TemplateValue.value (t : TemplateValue) : Value :=
  .object [("cooked", .ofText? t.cooked), ("raw", .text t.raw)]

theorem LiteralValue.eventsThen_value (v : LiteralValue) (rest : List Event) :
    v.value.eventsThen rest = v.eventsThen rest := by
  cases v with
  | number x =>
      rw [value, numberValue, eventsThen, numberEvent]
      split <;> rfl
  | _ => rfl

theorem TemplateValue.eventsThen_value (t : TemplateValue) (rest : List Event) :
    t.value.eventsThen rest = t.eventsThen rest := by
  obtain ⟨cooked, raw⟩ := t
  cases cooked <;> rfl

/-! ## Nodes -/

mutual

def Node.value {k : Kind} : Node k → Value
  | .mk fields => .object (("type", .text k.name) :: fields.members)

def Fields.members {fs : List FieldSpec} : Fields fs → List (String × Value)
  | .nil => []
  | .cons (f := f) value rest => (value.value?.map (f.name, ·)).toList ++ rest.members

/-- A field as a value, unless it is left out. -/
def FieldValue.value? {t : FieldType} : FieldValue t → Option Value
  | .flag b => some (.bool b)
  | .text s => some (.text s)
  | .optionalText s => s.map .text
  | .literal v => some v.value
  | .template v => some v.value
  | .word w => some (.text (Word.text w))
  | .one child => some child.value
  | .absent => some .null
  | .present child => some child.value
  | .many items => some (.array items.values)
  | .holes items => some (.array items.values)

/-- A list of nodes as values, with null in the place of gaps. -/
def Items.values {g : Bool} {s : Slot} : Items g s → List Value
  | .nil => []
  | .cons child rest => child.value :: rest.values
  | .hole rest => .null :: rest.values

def Occupant.value {s : Slot} : Occupant s → Value
  | .mk _ node => node.value

end

def AnyNode.value (n : AnyNode) : Value :=
  n.node.value

mutual

theorem Node.eventsThen_value {k : Kind} :
    ∀ (n : Node k) (rest : List Event), n.value.eventsThen rest = n.eventsThen rest
  | .mk fields, rest => by
      rw [Node.value, Node.eventsThen, ← fields.membersThen_members]
      rfl

theorem Fields.membersThen_members {fs : List FieldSpec} :
    ∀ (fields : Fields fs) (rest : List Event),
      Value.membersThen fields.members rest = fields.eventsThen rest
  | .nil, _ => rfl
  | .cons value fields, rest => by
      rw [Fields.eventsThen, ← value.membersThen_value?, ← fields.membersThen_members,
        Fields.members, Value.membersThen_eq_append, Value.membersThen_eq_append,
        Value.membersThen_eq_append, List.flatMap_append, List.append_assoc]

theorem FieldValue.membersThen_value? {t : FieldType} (name : String) :
    ∀ (value : FieldValue t) (rest : List Event),
      Value.membersThen (value.value?.map (name, ·)).toList rest = value.memberThen name rest
  | .flag _, _ => rfl
  | .text _, _ => rfl
  | .optionalText none, _ => rfl
  | .optionalText (some _), _ => rfl
  | .literal v, rest => congrArg (Event.member name :: ·) (v.eventsThen_value rest)
  | .template v, rest => congrArg (Event.member name :: ·) (v.eventsThen_value rest)
  | .word _, _ => rfl
  | .one child, rest => congrArg (Event.member name :: ·) (child.eventsThen_value rest)
  | .absent, _ => rfl
  | .present child, rest => congrArg (Event.member name :: ·) (child.eventsThen_value rest)
  | .many items, rest => by
      rw [FieldValue.memberThen, ← items.itemsThen_values]
      rfl
  | .holes items, rest => by
      rw [FieldValue.memberThen, ← items.itemsThen_values]
      rfl

theorem Items.itemsThen_values {g : Bool} {s : Slot} :
    ∀ (items : Items g s) (rest : List Event),
      Value.itemsThen items.values rest = items.eventsThen rest
  | .nil, _ => rfl
  | .cons child items, rest => by
      rw [Items.eventsThen, ← child.eventsThen_value, ← items.itemsThen_values]
      rfl
  | .hole items, rest => by
      rw [Items.eventsThen, ← items.itemsThen_values]
      rfl

theorem Occupant.eventsThen_value {s : Slot} :
    ∀ (child : Occupant s) (rest : List Event), child.value.eventsThen rest = child.eventsThen rest
  | .mk _ node, rest => node.eventsThen_value rest

end

/-- The events of a tree are those of a value. -/
theorem AnyNode.events_value (n : AnyNode) : n.value.events = n.events :=
  n.node.eventsThen_value []

end EcmaTree
