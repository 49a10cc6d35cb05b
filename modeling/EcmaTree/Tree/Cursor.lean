import EcmaTree.Tree.Node

/-!
# Enumerating children

`Node.slots` gives the contents of the child fields of a node in the order that
the schema declares.  A `Cursor` is a place in them: the number of a child field
and the number of an item in it.  `Cursor.advance` answers a call for the next
node: it moves past gaps, empty lists and absent children.

The children of a node are what the cursor at its start meets one after another.
Each of them is smaller than the node, so functions on trees may recur on
children; `AnyNode.walk` is the first of them.
-/

namespace EcmaTree

/-- The contents of the child fields of a node, in the order that the schema declares. -/
def Node.slots {k : Kind} (n : Node k) : List (List (Option AnyNode)) :=
  k.childFields.map n.fields.contentsOf

/-- A place among the children of a node. -/
structure Cursor where
  /-- The node whose children are enumerated. -/
  root : AnyNode
  /-- The number of a child field. -/
  slot : Nat := 0
  /-- The number of an item in it. -/
  item : Nat := 0

/-- What a cursor points at. -/
inductive Step where
  | child (n : AnyNode)
  | hole
  | endOfSlot
  | endOfNode

namespace Cursor

def slots (c : Cursor) : List (List (Option AnyNode)) :=
  c.root.node.slots

def step (c : Cursor) : Step :=
  match c.slots[c.slot]? with
  | none => .endOfNode
  | some contents =>
    match contents[c.item]? with
    | none => .endOfSlot
    | some none => .hole
    | some (some n) => .child n

def nextItem (c : Cursor) : Cursor :=
  { c with item := c.item + 1 }

def nextSlot (c : Cursor) : Cursor :=
  { c with slot := c.slot + 1, item := 0 }

def slotsLeft (c : Cursor) : Nat :=
  c.slots.length - c.slot

def itemsLeft (c : Cursor) : Nat :=
  (c.slots[c.slot]?.getD []).length - c.item

theorem itemsLeft_nextItem_lt {c : Cursor} {contents : List (Option AnyNode)}
    {content : Option AnyNode} (hslot : c.slots[c.slot]? = some contents)
    (hitem : contents[c.item]? = some content) :
    c.nextItem.itemsLeft < c.itemsLeft := by
  have hlt : c.item < contents.length := (List.getElem?_eq_some_iff.mp hitem).1
  have hslot' : c.nextItem.slots[c.nextItem.slot]? = some contents := hslot
  rw [itemsLeft, itemsLeft, hslot, hslot']
  show contents.length - (c.item + 1) < contents.length - c.item
  omega

theorem slotsLeft_nextSlot_lt {c : Cursor} {contents : List (Option AnyNode)}
    (hslot : c.slots[c.slot]? = some contents) :
    c.nextSlot.slotsLeft < c.slotsLeft := by
  have hlt : c.slot < c.slots.length := (List.getElem?_eq_some_iff.mp hslot).1
  show c.slots.length - (c.slot + 1) < c.slots.length - c.slot
  omega

theorem slotsLeft_nextItem (c : Cursor) : c.nextItem.slotsLeft = c.slotsLeft :=
  rfl

theorem exists_slot_of_step_hole {c : Cursor} (h : c.step = .hole) :
    ∃ contents, c.slots[c.slot]? = some contents ∧ contents[c.item]? = some none := by
  simp only [step] at h
  split at h
  · cases h
  next contents hslot =>
    split at h
    · cases h
    next hitem => exact ⟨contents, hslot, hitem⟩
    · cases h

theorem exists_slot_of_step_endOfSlot {c : Cursor} (h : c.step = .endOfSlot) :
    ∃ contents, c.slots[c.slot]? = some contents ∧ contents[c.item]? = none := by
  simp only [step] at h
  split at h
  · cases h
  next contents hslot =>
    split at h
    next hitem => exact ⟨contents, hslot, hitem⟩
    · cases h
    · cases h

theorem exists_slot_of_step_child {c : Cursor} {n : AnyNode} (h : c.step = .child n) :
    ∃ contents, c.slots[c.slot]? = some contents ∧ contents[c.item]? = some (some n) := by
  simp only [step] at h
  split at h
  · cases h
  next contents hslot =>
    split at h
    · cases h
    · cases h
    next m hitem =>
      cases h
      exact ⟨contents, hslot, hitem⟩

theorem nextItem_decreases {c : Cursor} (h : c.step = .hole) :
    Prod.Lex (· < ·) (· < ·) (c.nextItem.slotsLeft, c.nextItem.itemsLeft)
      (c.slotsLeft, c.itemsLeft) := by
  obtain ⟨contents, hslot, hitem⟩ := exists_slot_of_step_hole h
  rw [slotsLeft_nextItem]
  exact Prod.Lex.right _ (itemsLeft_nextItem_lt hslot hitem)

theorem nextSlot_decreases {c : Cursor} (h : c.step = .endOfSlot) :
    Prod.Lex (· < ·) (· < ·) (c.nextSlot.slotsLeft, c.nextSlot.itemsLeft)
      (c.slotsLeft, c.itemsLeft) := by
  obtain ⟨contents, hslot, _⟩ := exists_slot_of_step_endOfSlot h
  exact Prod.Lex.left _ _ (slotsLeft_nextSlot_lt hslot)

/-- The answer to a call for the next node, and the cursor as the call leaves it:
behind the node, or at the end of all fields. -/
def advance (c : Cursor) : Option AnyNode × Cursor :=
  match _h : c.step with
  | .child n => (some n, c.nextItem)
  | .hole => c.nextItem.advance
  | .endOfSlot => c.nextSlot.advance
  | .endOfNode => (none, c)
termination_by (c.slotsLeft, c.itemsLeft)
decreasing_by
  · exact nextItem_decreases _h
  · exact nextSlot_decreases _h

/-- The next node from a cursor on, and the cursor behind it. -/
def next? (c : Cursor) : Option (AnyNode × Cursor) :=
  match c.advance with
  | (found, c') => found.map fun n => (n, c')

theorem advance_of_next? {c c' : Cursor} {n : AnyNode} (h : c.next? = some (n, c')) :
    c.advance = (some n, c') := by
  obtain ⟨m, hfound, heq⟩ := Option.map_eq_some_iff.mp h
  cases heq
  exact Prod.ext hfound rfl

/-- The cursor behind the next node is further on. -/
theorem next?_decreases {c c' : Cursor} {n : AnyNode} (h : c.next? = some (n, c')) :
    Prod.Lex (· < ·) (· < ·) (c'.slotsLeft, c'.itemsLeft) (c.slotsLeft, c.itemsLeft) := by
  replace h := advance_of_next? h
  fun_induction advance c with
  | case1 c m hstep =>
    cases h
    obtain ⟨contents, hslot, hitem⟩ := exists_slot_of_step_child hstep
    rw [slotsLeft_nextItem]
    exact Prod.Lex.right _ (itemsLeft_nextItem_lt hslot hitem)
  | case2 c hstep ih =>
    obtain ⟨contents, hslot, hitem⟩ := exists_slot_of_step_hole hstep
    have hrec := ih h
    rw [slotsLeft_nextItem] at hrec
    have hlt := itemsLeft_nextItem_lt hslot hitem
    rw [Prod.lex_def] at hrec ⊢
    simp only at hrec ⊢
    omega
  | case3 c hstep ih =>
    obtain ⟨contents, hslot, _⟩ := exists_slot_of_step_endOfSlot hstep
    have hrec := ih h
    have hlt := slotsLeft_nextSlot_lt hslot
    rw [Prod.lex_def] at hrec ⊢
    simp only at hrec ⊢
    omega
  | case4 c hstep => cases h

def toList (c : Cursor) : List AnyNode :=
  match _h : c.next? with
  | none => []
  | some (n, c') => n :: c'.toList
termination_by (c.slotsLeft, c.itemsLeft)
decreasing_by exact next?_decreases _h

end Cursor

def AnyNode.cursor (n : AnyNode) : Cursor where
  root := n

/-- The children of a node, in order. -/
def AnyNode.children (n : AnyNode) : List AnyNode :=
  n.cursor.toList

namespace Cursor

theorem exists_slot_of_next? {c c' : Cursor} {n : AnyNode} (h : c.next? = some (n, c')) :
    c'.root = c.root ∧ ∃ contents ∈ c.slots, some n ∈ contents := by
  replace h := advance_of_next? h
  fun_induction advance c with
  | case1 c m hstep =>
    cases h
    obtain ⟨contents, hslot, hitem⟩ := exists_slot_of_step_child hstep
    exact ⟨rfl, contents, List.mem_of_getElem? hslot, List.mem_of_getElem? hitem⟩
  | case2 c hstep ih => exact ih h
  | case3 c hstep ih => exact ih h
  | case4 c hstep => cases h

theorem exists_slot_of_mem_toList {c : Cursor} {n : AnyNode} (h : n ∈ c.toList) :
    ∃ contents ∈ c.slots, some n ∈ contents := by
  fun_induction toList c with
  | case1 c hnext => simp at h
  | case2 c m c' hnext ih =>
    obtain ⟨hroot, hfound⟩ := exists_slot_of_next? hnext
    rcases List.mem_cons.mp h with rfl | hrest
    · exact hfound
    · have hslots : c'.slots = c.slots :=
        congrArg (fun root : AnyNode => root.node.slots) hroot
      simpa only [hslots] using ih hrest

end Cursor

theorem Occupant.sizeOf_toAnyNode_lt {s : Slot} (child : Occupant s) :
    sizeOf child.toAnyNode.node < sizeOf child := by
  cases child with
  | mk fits node =>
    show sizeOf node < sizeOf (Occupant.mk fits node)
    rw [Occupant.mk.sizeOf_spec]
    omega

theorem Items.sizeOf_lt_of_mem {n : AnyNode} :
    ∀ {g : Bool} {s : Slot} (items : Items g s), some n ∈ items.toList →
      sizeOf n.node < sizeOf items
  | _, _, .nil, h => by simp [toList] at h
  | _, _, .cons child rest, h => by
    simp only [toList, List.mem_cons, Option.some.injEq] at h
    rcases h with rfl | h
    · have hlt := child.sizeOf_toAnyNode_lt
      simp only [Items.cons.sizeOf_spec]
      omega
    · have hlt := rest.sizeOf_lt_of_mem h
      simp only [Items.cons.sizeOf_spec]
      omega
  | _, _, .hole rest, h => by
    simp only [toList, List.mem_cons, reduceCtorEq, false_or] at h
    have hlt := rest.sizeOf_lt_of_mem h
    simp only [Items.hole.sizeOf_spec]
    omega

theorem FieldValue.sizeOf_lt_of_mem {n : AnyNode} {t : FieldType} (value : FieldValue t)
    (h : some n ∈ value.contents) : sizeOf n.node < sizeOf value := by
  cases value with
  | one child =>
    simp only [contents, List.mem_singleton, Option.some.injEq] at h
    subst h
    have hlt := child.sizeOf_toAnyNode_lt
    simp only [FieldValue.one.sizeOf_spec]
    omega
  | present child =>
    simp only [contents, List.mem_singleton, Option.some.injEq] at h
    subst h
    have hlt := child.sizeOf_toAnyNode_lt
    simp only [FieldValue.present.sizeOf_spec]
    omega
  | many items =>
    have hlt := items.sizeOf_lt_of_mem h
    simp only [FieldValue.many.sizeOf_spec]
    omega
  | holes items =>
    have hlt := items.sizeOf_lt_of_mem h
    simp only [FieldValue.holes.sizeOf_spec]
    omega
  | _ => simp [contents] at h

theorem Fields.sizeOf_lt_of_find? {name : String} {t : FieldType} {value : FieldValue t} :
    ∀ {fs : List FieldSpec} (fields : Fields fs), fields.find? name = some ⟨t, value⟩ →
      sizeOf value < sizeOf fields
  | _, .nil, h => by simp [find?] at h
  | _, .cons first rest, h => by
    simp only [find?] at h
    split at h
    · simp only [Option.some.injEq, Sigma.mk.injEq] at h
      obtain ⟨ht, hv⟩ := h
      subst ht
      have hv := eq_of_heq hv
      subst hv
      simp only [Fields.cons.sizeOf_spec]
      omega
    · have hlt := rest.sizeOf_lt_of_find? h
      simp only [Fields.cons.sizeOf_spec]
      omega

theorem Fields.sizeOf_lt_of_mem_contentsOf {fs : List FieldSpec} (fields : Fields fs)
    {name : String} {n : AnyNode} (h : some n ∈ fields.contentsOf name) :
    sizeOf n.node < sizeOf fields := by
  rw [contentsOf] at h
  split at h
  next t value hfind =>
    exact Nat.lt_trans (value.sizeOf_lt_of_mem h) (fields.sizeOf_lt_of_find? hfind)
  · cases h

/-- A node is larger than any of its children. -/
theorem AnyNode.sizeOf_lt_of_mem_children {m n : AnyNode} (h : m ∈ n.children) :
    sizeOf m.node < sizeOf n.node := by
  obtain ⟨contents, hcontents, hm⟩ := Cursor.exists_slot_of_mem_toList h
  obtain ⟨node⟩ := n
  simp only [Cursor.slots, cursor, Node.slots, List.mem_map] at hcontents
  obtain ⟨name, _, rfl⟩ := hcontents
  have hfields := node.fields.sizeOf_lt_of_mem_contentsOf hm
  cases node with
  | mk fields =>
    simp only [Node.fields] at hfields
    simp only [Node.mk.sizeOf_spec]
    omega

/-- The node reached from another by choosing a child, by its number, at each step. -/
def AnyNode.descendant? (n : AnyNode) : List Nat → Option AnyNode
  | [] => some n
  | i :: path => n.children[i]?.bind fun m => m.descendant? path

/-- The nodes of a tree before their children, each with its depth below the root. -/
def AnyNode.walk (depth : Nat) (n : AnyNode) : List (Nat × AnyNode) :=
  (depth, n) :: n.children.attach.flatMap fun m => m.val.walk (depth + 1)
termination_by sizeOf n.node
decreasing_by exact AnyNode.sizeOf_lt_of_mem_children m.property

/-- A walk is the root and then the walks from its children. -/
theorem AnyNode.walk_eq (depth : Nat) (n : AnyNode) :
    n.walk depth = (depth, n) :: n.children.flatMap (walk (depth + 1)) := by
  rw [walk, List.flatMap_def, List.flatMap_def]
  exact congrArg (fun walks => (depth, n) :: List.flatten walks) List.attach_map_val

end EcmaTree
