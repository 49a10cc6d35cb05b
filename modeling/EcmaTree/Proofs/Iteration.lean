import EcmaTree.Proofs.Enumeration
import Mathlib.Logic.Relation

/-!
# Calls for the next child

The schema declares which fields of a node hold its children, and in which
order.  A cursor is called for one child after another.  A call passes over gaps
and over the ends of fields until it comes to a child or to the end of all
fields, which takes finitely many turns since each of them leaves less to pass.

What a call passes over holds no child.  So a call takes the first child off
those that are ahead, and the calls from the start of a node give the declared
children in order and then, forever, nothing.
-/

namespace EcmaTree

/-! ## The children that are declared -/

/-- The nodes of a list, without its gaps. -/
def Items.nodes {g : Bool} {s : Slot} : Items g s → List AnyNode
  | .nil => []
  | .cons child rest => child.toAnyNode :: rest.nodes
  | .hole rest => rest.nodes

/-- The children in a field: one that must be there, one that may be there, all
items of a list, or those items of a list with gaps that are no gaps. -/
def FieldValue.nodes {t : FieldType} : FieldValue t → List AnyNode
  | .one child => [child.toAnyNode]
  | .absent => []
  | .present child => [child.toAnyNode]
  | .many items => items.nodes
  | .holes items => items.nodes
  | _ => []

def Fields.nodesOf {fs : List FieldSpec} (fields : Fields fs) (name : String) : List AnyNode :=
  match fields.find? name with
  | some ⟨_, value⟩ => value.nodes
  | none => []

/-- The children of a node in the fields that the schema declares for them, field
by field. -/
def AnyNode.declaredChildren (n : AnyNode) : List AnyNode :=
  n.kind.childFields.flatMap n.node.fields.nodesOf

theorem Items.filterMap_toList {g : Bool} {s : Slot} :
    ∀ items : Items g s, items.toList.filterMap id = items.nodes
  | .nil => rfl
  | .cons child rest => congrArg (child.toAnyNode :: ·) rest.filterMap_toList
  | .hole rest => rest.filterMap_toList

theorem FieldValue.filterMap_contents {t : FieldType} (value : FieldValue t) :
    value.contents.filterMap id = value.nodes := by
  cases value with
  | many items => exact items.filterMap_toList
  | holes items => exact items.filterMap_toList
  | _ => rfl

theorem Fields.filterMap_contentsOf
    {fs : List FieldSpec} (fields : Fields fs) (name : String) :
    (fields.contentsOf name).filterMap id = fields.nodesOf name := by
  unfold contentsOf nodesOf
  cases fields.find? name with
  | none => rfl
  | some found => exact found.2.filterMap_contents

theorem AnyNode.children_eq_declaredChildren (n : AnyNode) :
    n.children = n.declaredChildren := by
  rw [children_eq_slots, Node.slots, declaredChildren, ← List.flatMap_def,
    List.filterMap_flatMap]
  exact List.flatMap_congr fun name _ => n.node.fields.filterMap_contentsOf name

/-- Among fields with different names, one that holds nodes is found by its name. -/
theorem Fields.exists_find?_of_mem_childNames
    {fs : List FieldSpec} (fields : Fields fs) (hnames : (fs.map FieldSpec.name).Nodup)
    {name : String} (h : name ∈ FieldSpec.childNames fs) :
    ∃ t value, fields.find? name = some ⟨t, value⟩ ∧ t.holdsNodes = true := by
  induction fs with
  | nil => cases h
  | cons f fs ih =>
      obtain ⟨hfresh, hnames⟩ := List.nodup_cons.mp hnames
      cases fields with
      | cons value rest =>
          by_cases hname : f.name = name
          · refine ⟨f.type, value, if_pos hname, ?_⟩
            by_contra hholds
            rw [Bool.not_eq_true] at hholds
            rw [FieldSpec.childNames_cons_of_not_holdsNodes fs hholds] at h
            exact hfresh (hname ▸ FieldSpec.childNames_subset fs h)
          · have hrest : name ∈ FieldSpec.childNames fs := by
              cases hholds : f.type.holdsNodes with
              | true =>
                  rw [FieldSpec.childNames_cons_of_holdsNodes fs hholds] at h
                  exact (List.mem_cons.mp h).resolve_left (Ne.symm hname)
              | false => rwa [FieldSpec.childNames_cons_of_not_holdsNodes fs hholds] at h
            obtain ⟨t, found, hfind, hholds⟩ := ih rest hnames hrest
            exact ⟨t, found, (if_neg hname).trans hfind, hholds⟩

namespace Cursor

/-! ## One call -/

/-- One turn of a call, in which the cursor passes over a gap or over the end of a
field. -/
inductive Passes : Cursor → Cursor → Prop where
  | hole {c : Cursor} (h : c.step = .hole) : Passes c c.nextItem
  | endOfSlot {c : Cursor} (h : c.step = .endOfSlot) : Passes c c.nextSlot

/-- A call passes over finitely many places and then stops, at a child or at the
end of all fields. -/
theorem exists_passes_advance (c : Cursor) :
    ∃ last, Relation.ReflTransGen Passes c last ∧
      ((∃ n, last.step = .child n ∧ c.advance = (some n, last.nextItem)) ∨
        (last.step = .endOfNode ∧ c.advance = (none, last))) := by
  fun_induction advance c with
  | case1 c n hstep => exact ⟨c, .refl, .inl ⟨n, hstep, rfl⟩⟩
  | case2 c hstep ih =>
      obtain ⟨last, hpasses, hstop⟩ := ih
      exact ⟨last, hpasses.head (.hole hstep), hstop⟩
  | case3 c hstep ih =>
      obtain ⟨last, hpasses, hstop⟩ := ih
      exact ⟨last, hpasses.head (.endOfSlot hstep), hstop⟩
  | case4 c hstep => exact ⟨c, .refl, .inr ⟨hstep, rfl⟩⟩

/-- No child is lost where a cursor passes. -/
theorem Passes.toList_eq {c c' : Cursor} (h : Passes c c') : c.toList = c'.toList := by
  rw [toList_eq_ahead, toList_eq_ahead]
  cases h with
  | hole hstep =>
      obtain ⟨contents, hslot, hitem⟩ := exists_slot_of_step_hole hstep
      rw [ahead_of_getElem? hslot hitem]
      rfl
  | endOfSlot hstep => rw [ahead_of_step_endOfSlot hstep]

theorem toList_of_passes
    {c last : Cursor} (h : Relation.ReflTransGen Passes c last) :
    c.toList = last.toList := by
  induction h with
  | refl => rfl
  | tail _ hturn ih => exact ih.trans hturn.toList_eq

theorem toList_of_step_child
    {c : Cursor} {n : AnyNode} (h : c.step = .child n) :
    c.toList = n :: c.nextItem.toList := by
  obtain ⟨contents, hslot, hitem⟩ := exists_slot_of_step_child h
  rw [toList_eq_ahead, toList_eq_ahead, ahead_of_getElem? hslot hitem]
  rfl

theorem toList_of_step_endOfNode
    {c : Cursor} (h : c.step = .endOfNode) :
    c.toList = [] := by
  rw [toList_eq_ahead, ahead_of_step_endOfNode h]
  rfl

/-- A call takes the first child off those that are ahead. -/
theorem toList_advance (c : Cursor) :
    c.advance.1 = c.toList.head? ∧ c.advance.2.toList = c.toList.tail := by
  obtain ⟨last, hpasses, ⟨n, hstep, hcall⟩ | ⟨hstep, hcall⟩⟩ := c.exists_passes_advance
  · rw [hcall, toList_of_passes hpasses, toList_of_step_child hstep]
    exact ⟨rfl, rfl⟩
  · rw [hcall, toList_of_passes hpasses, toList_of_step_endOfNode hstep]
    exact ⟨rfl, rfl⟩

/-! ## Several calls -/

def after (c : Cursor) : Nat → Cursor
  | 0 => c
  | i + 1 => (c.after i).advance.2

theorem toList_after (c : Cursor) (i : Nat) : (c.after i).toList = c.toList.drop i := by
  induction i with
  | zero => rfl
  | succ i ih => rw [after, (c.after i).toList_advance.2, ih, List.tail_drop]

theorem advance_after (c : Cursor) (i : Nat) : (c.after i).advance.1 = c.toList[i]? := by
  rw [(c.after i).toList_advance.1, toList_after, List.head?_drop]

theorem advance_after_of_none
    {c : Cursor} (h : c.advance.1 = none) (i : Nat) :
    (c.after i).advance.1 = none := by
  have hnothing : c.toList = [] := by
    rw [c.toList_advance.1] at h
    exact List.head?_eq_none_iff.mp h
  rw [advance_after, hnothing, List.getElem?_nil]

end Cursor

/-! ## All calls -/

/-- Every field that is declared to hold children does so, and the calls from the
start of a node give the children in these fields, in the order declared, and
nothing after that.  After any number of calls, what is ahead are the children
not yet given.  Each call ends, wherever the cursor stands, and if it has found
nothing then later calls find nothing either. -/
theorem AnyNode.calls_enumerate_declaredChildren (n : AnyNode) :
    (∀ name ∈ n.kind.childFields, ∃ t value,
      n.node.fields.find? name = some ⟨t, value⟩ ∧ t.holdsNodes = true) ∧
    (∀ i, (n.cursor.after i).advance.1 = n.declaredChildren[i]? ∧
      (n.cursor.after i).toList = n.declaredChildren.drop i) ∧
    (∀ c : Cursor, ∃ last, Relation.ReflTransGen Cursor.Passes c last ∧
      ((∃ m, last.step = .child m ∧ c.advance = (some m, last.nextItem)) ∨
        (last.step = .endOfNode ∧ c.advance = (none, last)))) ∧
    ∀ c : Cursor, c.advance.1 = none → ∀ i, (c.after i).advance.1 = none := by
  have hchildren : n.cursor.toList = n.declaredChildren := n.children_eq_declaredChildren
  refine ⟨?_, ?_, Cursor.exists_passes_advance, fun c => Cursor.advance_after_of_none⟩
  · intro name hname
    rw [n.kind.childFields_eq] at hname
    exact n.node.fields.exists_find?_of_mem_childNames n.kind.nodup_fieldNames hname
  · intro i
    rw [Cursor.advance_after, Cursor.toList_after, hchildren]
    exact ⟨rfl, rfl⟩

/-- An export from a module has no declaration and no specifiers: the first call
passes over both fields, and the calls after it find nothing. -/
theorem AnyNode.calls_enumerate_declaredChildren_export :
    let path : Node .literal := .mk (.cons (.literal (.text "m")) (.cons (.text "'m'") .nil))
    let n : AnyNode := ⟨(.mk (.cons .absent (.cons (.many .nil)
      (.cons (.present (.mk rfl path)) .nil))) : Node .exportNamedDeclaration)⟩
    (∃ t value, n.node.fields.find? "specifiers" = some ⟨t, value⟩ ∧ t.holdsNodes = true) ∧
      n.cursor.advance.1 = some ⟨path⟩ ∧ ∀ i, ((n.cursor.after 1).after i).advance.1 = none := by
  intro path n
  have hdeclared : n.declaredChildren = [⟨path⟩] := rfl
  obtain ⟨hfields, hcalls, -, hlater⟩ := n.calls_enumerate_declaredChildren
  rw [hdeclared] at hcalls
  exact ⟨hfields "specifiers" (by decide), (hcalls 0).1, hlater (n.cursor.after 1) (hcalls 1).1⟩

end EcmaTree
