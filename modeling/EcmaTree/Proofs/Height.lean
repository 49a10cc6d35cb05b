import EcmaTree.Proofs.Lossless
import EcmaTree.Proofs.Traversal
import Mathlib.Data.List.MinMax

/-!
# The height of a tree and the depth of its written form

The written form of a node is an object, and each of its children stands inside
of it, so that the written form is at least as deep as the tree has levels.  From
one level to the next there is at most one more container, the array of a list
of children.  The objects of regular expressions and templates, and lists
without items, take the place of such an array, so a tree of one level may be
written with two containers around one another.

The bound on open containers where none is given is therefore enough for all
trees of half as many levels.
-/

namespace EcmaTree

/-! ## Levels -/

namespace AnyNode

/-- The number of levels of a tree, which is one for a node without children. -/
def levels (n : AnyNode) : Nat :=
  (n.children.attach.map fun m => m.val.levels).foldr max 0 + 1
termination_by sizeOf n.node
decreasing_by exact sizeOf_lt_of_mem_children m.property

theorem levels_eq (n : AnyNode) : n.levels = (n.children.map levels).foldr max 0 + 1 := by
  rw [levels, List.map_subtype fun _ _ => rfl, List.unattach_attach]

theorem levels_le_succ_iff {n : AnyNode} {k : Nat} :
    n.levels ≤ k + 1 ↔ ∀ m ∈ n.children, m.levels ≤ k := by
  rw [levels_eq, Nat.add_le_add_iff_right]
  constructor
  · intro h m hm
    exact (List.le_max_of_le (List.mem_map_of_mem hm) (Nat.le_refl _)).trans h
  · intro h
    apply List.max_le_of_forall_le
    exact List.forall_mem_map.mpr h

theorem levels_pos (n : AnyNode) : 0 < n.levels := by
  rw [levels_eq]
  exact Nat.succ_pos _

end AnyNode

/-! ## The written form is as deep as the tree is high -/

namespace Value

theorem depth_lt_of_mem_parts
    {part v : Value} (h : part ∈ v.parts) :
    part.depth < v.depth := by
  cases v with
  | array items => exact Nat.lt_succ_of_le (depthItems_le_iff.mp (Nat.le_refl _) part h)
  | object members =>
      obtain ⟨m, hm, rfl⟩ := List.mem_map.mp h
      exact Nat.lt_succ_of_le (depthMembers_le_iff.mp (Nat.le_refl _) m hm)
  | _ => cases h

theorem depth_le_of_mem_typedObjects
    {object v : Value} (h : object ∈ v.typedObjects) :
    object.depth ≤ v.depth := by
  rw [typedObjects_eq] at h
  split at h
  · rw [List.mem_singleton.mp h]
  · obtain ⟨part, hpart, hobject⟩ := List.mem_flatMap.mp h
    exact (depth_le_of_mem_typedObjects hobject).trans (depth_lt_of_mem_parts hpart).le
termination_by v
decreasing_by exact sizeOf_lt_of_mem_parts hpart

theorem depth_lt_of_mem_innerTypedObjects
    {object v : Value} (h : object ∈ v.innerTypedObjects) :
    object.depth < v.depth := by
  obtain ⟨part, hpart, hobject⟩ := List.mem_flatMap.mp h
  exact (depth_le_of_mem_typedObjects hobject).trans_lt (depth_lt_of_mem_parts hpart)

end Value

namespace AnyNode

/-- A node is written inside of its parent. -/
theorem depth_value_lt_of_mem_children
    {m n : AnyNode} (h : m ∈ n.children) :
    m.value.depth < n.value.depth := by
  apply Value.depth_lt_of_mem_innerTypedObjects
  rw [innerTypedObjects_value]
  exact List.mem_map_of_mem h

theorem levels_le_depth_value (n : AnyNode) : n.levels ≤ n.value.depth := by
  induction n using induction_on_children with
  | node n ih =>
      have hobject : 0 < n.value.depth := by
        obtain ⟨⟨fields⟩⟩ := n
        exact Nat.succ_pos _
      obtain ⟨d, hd⟩ := Nat.exists_eq_add_one.mpr hobject
      rw [hd, levels_le_succ_iff]
      intro m hm
      have hlt := depth_value_lt_of_mem_children hm
      rw [hd] at hlt
      exact (ih m hm).trans (Nat.le_of_lt_succ hlt)

end AnyNode

/-! ## One container more for each level -/

theorem LiteralValue.depth_value_le (v : LiteralValue) : v.value.depth ≤ 1 := by
  cases v with
  | number x =>
      rw [value, numberValue]
      split <;> exact Nat.zero_le _
  | regExp => exact Nat.le_refl _
  | _ => exact Nat.zero_le _

theorem TemplateValue.depth_value_le (t : TemplateValue) : t.value.depth ≤ 1 := by
  obtain ⟨_ | cooked, raw⟩ := t
  · exact Nat.le_refl _
  · exact Nat.le_refl _

section Bound

variable {d : Nat}

theorem Items.depth_values_le {g : Bool} {s : Slot} :
    ∀ items : Items g s, (∀ m ∈ items.toList.filterMap id, m.value.depth ≤ d) →
      ∀ v ∈ items.values, v.depth ≤ d
  | .nil, _ => List.forall_mem_nil _
  | .cons child rest, h => by
      obtain ⟨hchild, hrest⟩ := List.forall_mem_cons.mp h
      rw [values, List.forall_mem_cons, child.value_eq]
      exact ⟨hchild, rest.depth_values_le hrest⟩
  | .hole rest, h => List.forall_mem_cons.mpr ⟨Nat.zero_le d, rest.depth_values_le h⟩

/-- A field puts at most one container around the nodes that it holds. -/
theorem FieldValue.depth_value?_le
    {t : FieldType} (value : FieldValue t)
    (h : ∀ m ∈ value.contents.filterMap id, m.value.depth ≤ d) :
    ∀ v ∈ value.value?, v.depth ≤ d + 1 := by
  intro v hv
  cases value with
  | flag | text | word | absent =>
      cases hv
      exact Nat.zero_le _
  | optionalText s =>
      obtain ⟨s, -, rfl⟩ := Option.map_eq_some_iff.mp hv
      exact Nat.zero_le _
  | literal literal =>
      cases hv
      exact literal.depth_value_le.trans (Nat.le_add_left 1 d)
  | template template =>
      cases hv
      exact template.depth_value_le.trans (Nat.le_add_left 1 d)
  | one child | present child =>
      cases hv
      rw [child.value_eq]
      exact Nat.le_succ_of_le (h _ List.mem_cons_self)
  | many items | holes items =>
      cases hv
      exact Nat.succ_le_succ (Value.depthItems_le_iff.mpr (items.depth_values_le h))

theorem Fields.depth_members_le {fs : List FieldSpec} :
    ∀ fields : Fields fs, (∀ m ∈ fields.nodes, m.value.depth ≤ d) →
      ∀ m ∈ fields.members, m.2.depth ≤ d + 1
  | .nil, _ => List.forall_mem_nil _
  | .cons value rest, h => by
      obtain ⟨hvalue, hrest⟩ := List.forall_mem_append.mp h
      refine List.forall_mem_append.mpr ⟨?_, rest.depth_members_le hrest⟩
      intro m hm
      obtain ⟨v, hv, rfl⟩ := Option.map_eq_some_iff.mp (Option.mem_toList.mp hm)
      exact value.depth_value?_le hvalue v hv

/-- A node puts at most two containers around its children, the object that it is
itself and the array of a list. -/
theorem AnyNode.depth_value_le
    {n : AnyNode} (h : ∀ m ∈ n.children, m.value.depth ≤ d) :
    n.value.depth ≤ d + 2 := by
  rw [children_eq_nodes] at h
  obtain ⟨⟨fields⟩⟩ := n
  apply Nat.succ_le_succ
  rw [Value.depthMembers_le_iff, List.forall_mem_cons]
  exact ⟨Nat.zero_le _, fields.depth_members_le h⟩

end Bound

namespace AnyNode

theorem depth_value_le_two_mul_levels (n : AnyNode) : n.value.depth ≤ 2 * n.levels := by
  induction n using induction_on_children with
  | node n ih =>
      obtain ⟨k, hk⟩ := Nat.exists_eq_add_one.mpr n.levels_pos
      have hchildren : ∀ m ∈ n.children, m.value.depth ≤ 2 * k := by
        intro m hm
        have hlevels : m.levels ≤ k := levels_le_succ_iff.mp hk.le m hm
        exact (ih m hm).trans (Nat.mul_le_mul_left 2 hlevels)
      rw [hk, Nat.mul_succ]
      exact depth_value_le hchildren

/-! ## Reading a tree back -/

theorem decode_encoding_value
    {n : AnyNode} (hlevels : n.levels ≤ 2048)
    (htexts : ∀ s, .text s ∈ n.leaves → s.utf8ByteSize < 2 ^ 63) :
    Value.decode n.value.encoding = .ok n.value.normalize := by
  have hwritable : ∀ s ∈ n.value.texts, s.utf8ByteSize < 2 ^ 63 :=
    forall_texts_value (fun s hs => Nat.lt_trans hs (by decide)) htexts
  have hdepth : n.value.depth ≤ Decoder.defaultBound :=
    n.depth_value_le_two_mul_levels.trans (Nat.mul_le_mul_left 2 hlevels)
  have hdecode := Source.decode_encoding hwritable hdepth [] 0
  rw [List.append_nil] at hdecode
  exact congrArg Prod.fst hdecode

/-- The events of a node are those of one value, whose depth lies between the
number of levels of the tree and twice as many.  So a tree of at most 2048 levels
whose texts have lengths that can be written is read back with the bound that
holds where none is given: a fresh checked writer gives bytes that are decoded as
this value, with null in place of infinities and NaNs, and so are the bytes that
any writer has sent for it. -/
theorem depth_between_levels (n : AnyNode) :
    ∃ v : Value, (∀ u : Value, u.events = n.events ↔ u = v) ∧
      n.levels ≤ v.depth ∧ v.depth ≤ 2 * n.levels ∧
      (n.levels ≤ 2048 → (∀ s, .text s ∈ n.leaves → s.utf8ByteSize < 2 ^ 63) →
        (∃ bytes, n.encode = .ok bytes ∧ Value.decode bytes = .ok v.normalize) ∧
        ∀ (w w' : Writer) (bytes : List UInt8), w.writeNode n = (.ok (), w') →
          w'.sink.accepted = w.sink.accepted ++ bytes →
            Value.decode bytes = .ok v.normalize) := by
  refine ⟨n.value, ?_, n.levels_le_depth_value, n.depth_value_le_two_mul_levels, ?_⟩
  · intro u
    rw [← n.events_value]
    exact Value.events_injective.eq_iff
  · intro hlevels htexts
    have hdecode := decode_encoding_value hlevels htexts
    refine ⟨⟨n.value.encoding, n.encode_eq, hdecode⟩, ?_⟩
    intro w w' bytes hwrite hbytes
    rw [Writer.writeNode_accepted_of_ok hwrite] at hbytes
    rw [← List.append_cancel_left hbytes]
    exact hdecode

/-- An array that holds a gap and the literal of a number. -/
def sparseArray (x : Binary64) : AnyNode :=
  ⟨(.mk (.cons (.holes (.hole (.cons (.mk (k := .literal) (by decide)
    (.mk (.cons (.literal (.number x)) (.cons (.text "x") .nil)))) .nil))) .nil) :
      Node .arrayExpression)⟩

/-- Two levels that are written in three containers; the infinity comes back as
null. -/
theorem depth_between_levels_sparse :
    (sparseArray ⟨0x7FF0000000000000⟩).levels = 2 ∧
      ∃ bytes, (sparseArray ⟨0x7FF0000000000000⟩).encode = .ok bytes ∧
        Value.decode bytes = .ok (.object [("type", .text "ArrayExpression"),
          ("elements", .array [.null,
            .object [("type", .text "Literal"), ("value", .null), ("raw", .text "x")]])]) := by
  have hlevels : (sparseArray ⟨0x7FF0000000000000⟩).levels = 2 := by
    simp [levels_eq, children_eq_nodes, sparseArray, Node.fields, Fields.nodes,
      FieldValue.contents, Items.toList, Occupant.toAnyNode]
  have htexts : ∀ s, .text s ∈ (sparseArray ⟨0x7FF0000000000000⟩).leaves →
      s.utf8ByteSize < 2 ^ 63 := by
    intro s hs
    have hleaves : (sparseArray ⟨0x7FF0000000000000⟩).leaves =
        [.number ⟨0x7FF0000000000000⟩, .text "x"] := rfl
    obtain rfl : s = "x" := by
      simpa [hleaves] using hs
    decide
  obtain ⟨v, hv, -, -, hread⟩ := depth_between_levels (sparseArray ⟨0x7FF0000000000000⟩)
  obtain rfl := (hv _).mp (sparseArray ⟨0x7FF0000000000000⟩).events_value
  exact ⟨hlevels, (hread (by omega) htexts).1⟩

end AnyNode

end EcmaTree
