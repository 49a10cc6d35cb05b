import EcmaTree.Tree.Cursor
import Mathlib.Data.List.Basic

/-!
# The children of a node

A cursor meets exactly what lies ahead of it: the rest of its field and all of
the fields after that, without the gaps.  The schema names the fields that hold
nodes in the order in which they are declared, and no two fields of a node share
a name.  So the children of a node are the nodes in its fields, from the first
field to the last.
-/

namespace EcmaTree

/-! ## What a cursor meets -/

namespace Cursor

/-- What lies ahead of a cursor in its field and in the fields after it, with
nothing in the place of gaps. -/
def ahead (c : Cursor) : List (Option AnyNode) :=
  (c.slots[c.slot]?.getD []).drop c.item ++ (c.slots.drop (c.slot + 1)).flatten

theorem ahead_of_getElem?
    {c : Cursor} {contents : List (Option AnyNode)} {content : Option AnyNode}
    (hslot : c.slots[c.slot]? = some contents) (hitem : contents[c.item]? = some content) :
    c.ahead = content :: c.nextItem.ahead := by
  obtain ⟨hlt, hget⟩ := List.getElem?_eq_some_iff.mp hitem
  have hslot' : c.nextItem.slots[c.nextItem.slot]? = some contents := hslot
  rw [ahead, ahead, hslot, hslot', Option.getD_some, List.drop_eq_getElem_cons hlt, hget]
  rfl

theorem ahead_of_step_endOfSlot
    {c : Cursor} (h : c.step = .endOfSlot) :
    c.ahead = c.nextSlot.ahead := by
  obtain ⟨contents, hslot, hitem⟩ := exists_slot_of_step_endOfSlot h
  have hpast : contents.drop c.item = [] :=
    List.drop_eq_nil_of_le (List.getElem?_eq_none_iff.mp hitem)
  have hnext : c.slots.drop (c.slot + 1) =
      c.slots[c.slot + 1]?.toList ++ c.slots.drop (c.slot + 1 + 1) := by
    rw [List.drop_eq_getElem?_toList_append]
  rw [ahead, hslot, Option.getD_some, hpast, List.nil_append, hnext, List.flatten_append]
  change _ = (c.slots[c.slot + 1]?.getD []).drop 0 ++ _
  cases c.slots[c.slot + 1]? <;> simp [nextSlot, slots]

theorem ahead_of_step_endOfNode
    {c : Cursor} (h : c.step = .endOfNode) :
    c.ahead = [] := by
  have hslot : c.slots[c.slot]? = none := by
    simp only [step] at h
    split at h
    next hslot => exact hslot
    next contents hslot => split at h <;> cases h
  have hpast : c.slots.length ≤ c.slot := List.getElem?_eq_none_iff.mp hslot
  rw [ahead, hslot, List.drop_eq_nil_of_le (Nat.le_succ_of_le hpast)]
  simp

/-- The next node of a cursor is the first one ahead of it, and if there is no
next node, none is ahead. -/
theorem nodes_ahead_eq (c : Cursor) :
    c.ahead.filterMap id = c.next?.elim [] fun next => next.1 :: next.2.ahead.filterMap id := by
  rw [next?]
  fun_induction advance c with
  | case1 c n hstep =>
      obtain ⟨contents, hslot, hitem⟩ := exists_slot_of_step_child hstep
      rw [ahead_of_getElem? hslot hitem]
      rfl
  | case2 c hstep ih =>
      obtain ⟨contents, hslot, hitem⟩ := exists_slot_of_step_hole hstep
      rw [ahead_of_getElem? hslot hitem]
      exact ih
  | case3 c hstep ih =>
      rw [ahead_of_step_endOfSlot hstep]
      exact ih
  | case4 c hstep =>
      rw [ahead_of_step_endOfNode hstep]
      rfl

/-- A cursor meets the nodes ahead of it, one after another. -/
theorem toList_eq_ahead (c : Cursor) : c.toList = c.ahead.filterMap id := by
  fun_induction toList c with
  | case1 c hnext =>
      rw [nodes_ahead_eq, hnext]
      rfl
  | case2 c n c' hnext ih =>
      rw [nodes_ahead_eq, hnext, ih]
      rfl

end Cursor

theorem AnyNode.children_eq_slots (n : AnyNode) :
    n.children = n.node.slots.flatten.filterMap id := by
  rw [children, Cursor.toList_eq_ahead]
  change ((n.node.slots[0]?.getD []).drop 0 ++ (n.node.slots.drop 1).flatten).filterMap id = _
  cases n.node.slots <;> simp

/-! ## The fields that hold nodes -/

def FieldType.holdsNodes : FieldType → Bool
  | .one _ => true
  | .maybe _ => true
  | .many _ => true
  | .holes _ => true
  | _ => false

/-- The names of those of the given fields that hold nodes. -/
def FieldSpec.childNames (fs : List FieldSpec) : List String :=
  (fs.filter fun f => f.type.holdsNodes).map name

theorem FieldSpec.childNames_cons_of_holdsNodes
    {f : FieldSpec} (fs : List FieldSpec) (h : f.type.holdsNodes = true) :
    childNames (f :: fs) = f.name :: childNames fs := by
  simp [childNames, h]

theorem FieldSpec.childNames_cons_of_not_holdsNodes
    {f : FieldSpec} (fs : List FieldSpec) (h : f.type.holdsNodes = false) :
    childNames (f :: fs) = childNames fs := by
  simp [childNames, h]

theorem FieldSpec.childNames_subset (fs : List FieldSpec) : childNames fs ⊆ fs.map name :=
  (List.filter_sublist.map name).subset

/-- The children of a node are looked for in the fields that hold nodes, in the
order in which these are written. -/
theorem Kind.childFields_eq (k : Kind) : k.childFields = FieldSpec.childNames k.fields := by
  cases k <;> rfl

theorem Kind.nodup_fieldNames (k : Kind) : (k.fields.map FieldSpec.name).Nodup := by
  cases k <;> decide

theorem FieldValue.contents_eq_nil
    {t : FieldType} (value : FieldValue t) (h : t.holdsNodes = false) :
    value.contents = [] := by
  cases value with
  | one => cases h
  | absent => rfl
  | present => cases h
  | many => cases h
  | holes => cases h
  | _ => rfl

namespace Fields

/-- The nodes in the fields, from the first field to the last. -/
def nodes {fs : List FieldSpec} : Fields fs → List AnyNode
  | .nil => []
  | .cons value rest => value.contents.filterMap id ++ rest.nodes

theorem contentsOf_cons_self
    {f : FieldSpec} {fs : List FieldSpec} (value : FieldValue f.type) (rest : Fields fs) :
    (Fields.cons value rest).contentsOf f.name = value.contents := by
  rw [contentsOf, find?, if_pos rfl]

theorem contentsOf_cons_of_ne
    {f : FieldSpec} {fs : List FieldSpec} (value : FieldValue f.type) (rest : Fields fs)
    {name : String} (h : f.name ≠ name) :
    (Fields.cons value rest).contentsOf name = rest.contentsOf name := by
  rw [contentsOf, find?, if_neg h, contentsOf]

/-- Fields with different names are all found by their names. -/
theorem nodes_eq_contentsOf
    {fs : List FieldSpec} (fields : Fields fs) (hnames : (fs.map FieldSpec.name).Nodup) :
    ((FieldSpec.childNames fs).flatMap fields.contentsOf).filterMap id = fields.nodes := by
  induction fs with
  | nil =>
      cases fields
      rfl
  | cons f fs ih =>
      obtain ⟨hfresh, hnames⟩ := List.nodup_cons.mp hnames
      cases fields with
      | cons value rest =>
          -- The names of the later fields differ from the first, which is passed over.
          have hlater : (FieldSpec.childNames fs).flatMap (Fields.cons value rest).contentsOf =
              (FieldSpec.childNames fs).flatMap rest.contentsOf := by
            apply List.flatMap_congr
            intro name hname
            apply contentsOf_cons_of_ne
            rintro rfl
            exact hfresh (FieldSpec.childNames_subset fs hname)
          rw [nodes, ← ih rest hnames]
          cases hholds : f.type.holdsNodes with
          | true =>
              rw [FieldSpec.childNames_cons_of_holdsNodes fs hholds, List.flatMap_cons, hlater,
                contentsOf_cons_self, List.filterMap_append]
          | false =>
              rw [FieldSpec.childNames_cons_of_not_holdsNodes fs hholds, hlater,
                value.contents_eq_nil hholds]
              rfl

end Fields

/-- The children of a node are the nodes in its fields, in order. -/
theorem AnyNode.children_eq_nodes (n : AnyNode) : n.children = n.node.fields.nodes := by
  rw [children_eq_slots, ← Fields.nodes_eq_contentsOf _ n.kind.nodup_fieldNames,
    ← Kind.childFields_eq, List.flatMap_def]
  rfl

/-! ## Induction over trees -/

/-- What holds of a node as soon as it holds of its children holds of every node. -/
@[elab_as_elim]
theorem AnyNode.induction_on_children
    {motive : AnyNode → Prop}
    (node : ∀ n, (∀ m ∈ n.children, motive m) → motive n) (n : AnyNode) : motive n :=
  node n fun m _hm => induction_on_children node m
termination_by sizeOf n.node
decreasing_by exact sizeOf_lt_of_mem_children _hm

end EcmaTree
