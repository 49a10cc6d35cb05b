import EcmaTree.Proofs.Trees
import Mathlib.Data.List.Forall2

/-!
# Traversal and written form agree

An object in a written tree stands for a node exactly if its first member is
named `type`; the objects of regular expressions and templates begin otherwise.
The outermost such objects inside the written form of a node are the written
forms of its children, in the same order, so a walk through the children meets
the kinds in the order in which their names are written.
-/

namespace EcmaTree

/-! ## Typed objects -/

namespace Value

/-- The items of an array, or the values of the members of an object. -/
def parts : Value → List Value
  | .array items => items
  | .object members => members.map Prod.snd
  | _ => []

theorem sizeOf_lt_of_mem_parts
    {part v : Value} (h : part ∈ v.parts) :
    sizeOf part < sizeOf v := by
  cases v with
  | array items =>
      have hlt : sizeOf part < sizeOf items := List.sizeOf_lt_of_mem h
      rw [Value.array.sizeOf_spec]
      omega
  | object members =>
      obtain ⟨⟨name, value⟩, hmember, rfl⟩ := List.mem_map.mp h
      have hlt : sizeOf (name, value) < sizeOf members := List.sizeOf_lt_of_mem hmember
      rw [Prod.mk.sizeOf_spec] at hlt
      rw [Value.object.sizeOf_spec]
      show sizeOf value < _
      omega
  | _ => cases h

/-- An object whose first member is named `type`. -/
def isTyped : Value → Bool
  | .object ((name, _) :: _) => name == "type"
  | _ => false

/-- The outermost typed objects in a value, from left to right; this is the value
alone if it is one itself. -/
def typedObjects (v : Value) : List Value :=
  if v.isTyped then [v] else v.parts.attach.flatMap fun part => part.val.typedObjects
termination_by v
decreasing_by exact sizeOf_lt_of_mem_parts part.property

/-- The outermost typed objects properly inside a value, from left to right. -/
def innerTypedObjects (v : Value) : List Value :=
  v.parts.flatMap typedObjects

/-- The text of the first member of a typed object. -/
def typeName? : Value → Option String
  | .object ((name, .text s) :: _) => if name = "type" then some s else none
  | _ => none

/-- The types told by the typed objects in a value, outer before inner ones and
from left to right. -/
def typeNames (v : Value) : List String :=
  v.typeName?.toList ++ v.parts.attach.flatMap fun part => part.val.typeNames
termination_by v
decreasing_by exact sizeOf_lt_of_mem_parts part.property

theorem typedObjects_eq (v : Value) :
    v.typedObjects = if v.isTyped then [v] else v.innerTypedObjects := by
  rw [typedObjects, innerTypedObjects, List.flatMap_subtype fun _ _ => rfl, List.unattach_attach]

theorem typeNames_eq (v : Value) :
    v.typeNames = v.typeName?.toList ++ v.parts.flatMap typeNames := by
  rw [typeNames, List.flatMap_subtype fun _ _ => rfl, List.unattach_attach]

theorem typeName?_eq_none_of_not_isTyped
    {v : Value} (h : ¬v.isTyped) :
    v.typeName? = none := by
  unfold typeName?
  split
  next name s rest =>
    rw [if_neg]
    simpa [isTyped] using h
  · rfl

/-- Types are told by typed objects only. -/
theorem typeNames_eq_flatMap_typedObjects (v : Value) :
    v.typeNames = v.typedObjects.flatMap typeNames := by
  rw [typedObjects_eq]
  split
  · rw [List.flatMap_singleton]
  next htyped =>
    rw [typeNames_eq, typeName?_eq_none_of_not_isTyped htyped, innerTypedObjects,
      List.flatMap_assoc]
    apply List.flatMap_congr
    intro part _hpart
    exact part.typeNames_eq_flatMap_typedObjects
termination_by v
decreasing_by exact sizeOf_lt_of_mem_parts _hpart

/-- A value tells its own type first, and then those of the typed objects inside. -/
theorem typeNames_eq_append (v : Value) :
    v.typeNames = v.typeName?.toList ++ v.innerTypedObjects.flatMap typeNames := by
  rw [typeNames_eq, innerTypedObjects, List.flatMap_assoc,
    List.flatMap_congr fun part _ => part.typeNames_eq_flatMap_typedObjects]

theorem typedObjects_of_parts_eq_nil
    {v : Value} (h : v.parts = []) :
    v.typedObjects = [] := by
  have htyped : ¬v.isTyped := by
    intro htyped
    unfold isTyped at htyped
    split at htyped
    · cases h
    · cases htyped
  rw [typedObjects_eq, if_neg htyped, innerTypedObjects, h, List.flatMap_nil]

@[simp] theorem typedObjects_null : Value.null.typedObjects = [] :=
  typedObjects_of_parts_eq_nil rfl

@[simp] theorem typedObjects_bool (b : Bool) : (Value.bool b).typedObjects = [] :=
  typedObjects_of_parts_eq_nil rfl

@[simp] theorem typedObjects_int (i : Int64) : (Value.int i).typedObjects = [] :=
  typedObjects_of_parts_eq_nil rfl

@[simp] theorem typedObjects_float (x : Binary64) : (Value.float x).typedObjects = [] :=
  typedObjects_of_parts_eq_nil rfl

@[simp] theorem typedObjects_text (s : String) : (Value.text s).typedObjects = [] :=
  typedObjects_of_parts_eq_nil rfl

@[simp] theorem typedObjects_array (items : List Value) :
    (Value.array items).typedObjects = items.flatMap typedObjects := by
  rw [typedObjects_eq, if_neg (by simp [isTyped]), innerTypedObjects, parts]

@[simp] theorem innerTypedObjects_object (members : List (String × Value)) :
    (Value.object members).innerTypedObjects = members.flatMap fun m => m.2.typedObjects := by
  rw [innerTypedObjects, parts, List.flatMap_map]

end Value

/-! ## The typed objects of a node -/

theorem Occupant.value_eq {s : Slot} (child : Occupant s) :
    child.value = child.toAnyNode.value := by
  cases child with
  | mk _ node => rfl

/-- A node is written as a typed object. -/
@[simp] theorem AnyNode.typedObjects_value (n : AnyNode) : n.value.typedObjects = [n.value] := by
  have htyped : n.value.isTyped = true := by
    obtain ⟨⟨fields⟩⟩ := n
    simp [value, Node.value, Value.isTyped]
  rw [Value.typedObjects_eq, if_pos htyped]

@[simp] theorem LiteralValue.typedObjects_value (v : LiteralValue) :
    v.value.typedObjects = [] := by
  cases v with
  | number x =>
      rw [value, numberValue]
      split <;> simp
  | regExp => simp [value, Value.typedObjects_eq (.object _), Value.isTyped]
  | _ => simp [value]

@[simp] theorem TemplateValue.typedObjects_value (t : TemplateValue) :
    t.value.typedObjects = [] := by
  obtain ⟨cooked, raw⟩ := t
  cases cooked <;> simp [value, Value.ofText?, Value.typedObjects_eq (.object _), Value.isTyped]

theorem Items.typedObjects_values :
    ∀ {g : Bool} {s : Slot} (items : Items g s),
      items.values.flatMap Value.typedObjects = (items.toList.filterMap id).map AnyNode.value
  | _, _, .nil => rfl
  | _, _, .cons child rest => by
      rw [values, toList, List.flatMap_cons, rest.typedObjects_values, child.value_eq,
        AnyNode.typedObjects_value]
      rfl
  | _, _, .hole rest => by
      rw [values, toList, List.flatMap_cons, rest.typedObjects_values, Value.typedObjects_null]
      rfl

/-- The typed objects in a field are the nodes that it holds. -/
theorem FieldValue.typedObjects_value?
    {t : FieldType} (value : FieldValue t) :
    value.value?.toList.flatMap Value.typedObjects =
      (value.contents.filterMap id).map AnyNode.value := by
  cases value with
  | flag | text | word | absent => simp [value?, contents]
  | optionalText s => cases s <;> simp [value?, contents]
  | literal v => simp [value?, contents]
  | template v => simp [value?, contents]
  | one child => simp [value?, contents, child.value_eq]
  | present child => simp [value?, contents, child.value_eq]
  | many items => simp [value?, contents, items.typedObjects_values]
  | holes items => simp [value?, contents, items.typedObjects_values]

theorem Fields.typedObjects_members :
    ∀ {fs : List FieldSpec} (fields : Fields fs),
      fields.members.flatMap (fun m => m.2.typedObjects) = fields.nodes.map AnyNode.value
  | _, .nil => rfl
  | _, .cons (f := f) value rest => by
      have hvalue : (value.value?.map (f.name, ·)).toList.flatMap (fun m => m.2.typedObjects) =
          value.value?.toList.flatMap Value.typedObjects := by
        cases value.value? <;> rfl
      rw [nodes, List.map_append, ← rest.typedObjects_members, ← value.typedObjects_value?,
        ← hvalue, members, List.flatMap_append]

namespace AnyNode

/-- The outermost typed objects inside a written node are its children. -/
theorem innerTypedObjects_value (n : AnyNode) :
    n.value.innerTypedObjects = n.children.map value := by
  rw [children_eq_nodes]
  obtain ⟨⟨fields⟩⟩ := n
  rw [value, Node.value, Value.innerTypedObjects_object, List.flatMap_cons,
    Value.typedObjects_text, List.nil_append]
  exact fields.typedObjects_members

theorem typeName?_value (n : AnyNode) : n.value.typeName? = some n.kind.name := by
  obtain ⟨⟨fields⟩⟩ := n
  simp [value, Node.value, Value.typeName?]

/-- The types are written in the order of a walk. -/
theorem typeNames_value (n : AnyNode) (depth : Nat) :
    n.value.typeNames = (n.walk depth).map fun visited => visited.2.kind.name := by
  induction n using induction_on_children generalizing depth with
  | node n ih =>
      rw [Value.typeNames_eq_append, typeName?_value, innerTypedObjects_value, walk_eq,
        List.map_cons, List.map_flatMap, List.flatMap_map]
      exact congrArg (n.kind.name :: ·) (List.flatMap_congr fun m hm => ih m hm (depth + 1))

/-- The events of a node are those of one value.  The outermost typed objects
properly inside of it are what the children of the node are written as, one by
one and in order; and the types that it tells, outer before inner ones, are the
kinds that a walk through the children meets. -/
theorem children_are_inner_typed_objects (n : AnyNode) :
    ∃ v : Value, (∀ u : Value, u.events = n.events ↔ u = v) ∧
      List.Forall₂ (fun (part : Value) (child : AnyNode) => part.events = child.events)
        v.innerTypedObjects n.children ∧
      v.typeNames = (n.walk 0).map fun visited => visited.2.kind.name := by
  refine ⟨n.value, ?_, ?_, n.typeNames_value 0⟩
  · intro u
    constructor
    · intro hu
      exact Value.events_injective (hu.trans n.events_value.symm)
    · rintro rfl
      exact n.events_value
  · rw [innerTypedObjects_value, List.forall₂_map_left_iff, List.forall₂_same]
    intro child _
    exact child.events_value

end AnyNode

end EcmaTree
