import EcmaTree.Proofs.Trees

/-!
# The leaves of a syntax tree

The leaves of a tree are the numbers and texts that the schema does not fix.
Apart from them a written tree holds nulls, flags, and the names of kinds,
fields and words, all of which are short.  So a property of values that passes
from parts to containers holds of a written tree as soon as it holds of the
leaves.
-/

namespace EcmaTree

/-! ## Leaves -/

/-- A number or a text in a tree. -/
inductive Leaf where
  | number (x : Binary64)
  | text (s : String)
  deriving DecidableEq, Repr

def Leaf.value : Leaf → Value
  | .number x => LiteralValue.numberValue x
  | .text s => .text s

def LiteralValue.leaves : LiteralValue → List Leaf
  | .number x => [.number x]
  | .text s => [.text s]
  | .regExp pattern flags => [.text pattern, .text flags]
  | _ => []

def TemplateValue.leaves (t : TemplateValue) : List Leaf :=
  t.cooked.toList.map .text ++ [.text t.raw]

mutual

/-- The leaves of a node and of the nodes below it. -/
def Node.leaves {k : Kind} : Node k → List Leaf
  | .mk fields => fields.leaves

def Fields.leaves {fs : List FieldSpec} : Fields fs → List Leaf
  | .nil => []
  | .cons value rest => value.leaves ++ rest.leaves

def FieldValue.leaves {t : FieldType} : FieldValue t → List Leaf
  | .text s => [.text s]
  | .optionalText s => s.toList.map .text
  | .literal v => v.leaves
  | .template v => v.leaves
  | .one child => child.leaves
  | .present child => child.leaves
  | .many items => items.leaves
  | .holes items => items.leaves
  | _ => []

def Items.leaves {g : Bool} {s : Slot} : Items g s → List Leaf
  | .nil => []
  | .cons child rest => child.leaves ++ rest.leaves
  | .hole rest => rest.leaves

def Occupant.leaves {s : Slot} : Occupant s → List Leaf
  | .mk _ node => node.leaves

end

def AnyNode.leaves (n : AnyNode) : List Leaf :=
  n.node.leaves

/-! ## Names in the schema are short -/

theorem Kind.utf8ByteSize_name_lt (k : Kind) : k.name.utf8ByteSize < 32 := by
  cases k <;> decide

theorem Kind.utf8ByteSize_fieldName_lt (k : Kind) :
    ∀ f ∈ k.fields, f.name.utf8ByteSize < 32 := by
  cases k <;> decide

theorem Word.utf8ByteSize_text_lt (v : Vocabulary) (w : v.Entry) :
    (Word.text w).utf8ByteSize < 32 := by
  cases v <;> cases w <;> decide

/-! ## Properties that pass from the leaves to the tree -/

/-- A property that holds of what the schema fixes, and of a container as soon as
it holds of the parts; the names of members count as texts. -/
structure Value.Hereditary (p : Value → Prop) : Prop where
  null : p .null
  bool : ∀ b, p (.bool b)
  shortText : ∀ s : String, s.utf8ByteSize < 32 → p (.text s)
  array : ∀ items, (∀ v ∈ items, p v) → p (.array items)
  object : ∀ members, (∀ m ∈ members, p (.text m.1) ∧ p m.2) → p (.object members)

theorem Value.Hereditary.object_two
    {p : Value → Prop} (hp : Value.Hereditary p) {name name' : String} {v v' : Value}
    (hname : name.utf8ByteSize < 32) (hv : p v) (hname' : name'.utf8ByteSize < 32) (hv' : p v') :
    p (.object [(name, v), (name', v')]) := by
  apply hp.object
  simp only [List.forall_mem_cons]
  exact ⟨⟨hp.shortText _ hname, hv⟩, ⟨hp.shortText _ hname', hv'⟩, List.forall_mem_nil _⟩

theorem LiteralValue.value_of_leaves
    {p : Value → Prop} (hp : Value.Hereditary p) (v : LiteralValue)
    (h : ∀ leaf ∈ v.leaves, p leaf.value) : p v.value := by
  cases v with
  | null => exact hp.null
  | bool b => exact hp.bool b
  | number x => exact h (.number x) (List.mem_singleton.mpr rfl)
  | text s => exact h (.text s) (List.mem_singleton.mpr rfl)
  | regExp pattern flags =>
      have hpattern : p (.text pattern) := h (.text pattern) (by simp [leaves])
      have hflags : p (.text flags) := h (.text flags) (by simp [leaves])
      exact hp.object_two (by decide) hpattern (by decide) hflags

theorem TemplateValue.value_of_leaves
    {p : Value → Prop} (hp : Value.Hereditary p) (t : TemplateValue)
    (h : ∀ leaf ∈ t.leaves, p leaf.value) : p t.value := by
  obtain ⟨cooked, raw⟩ := t
  have hraw : p (.text raw) := h (.text raw) (by simp [leaves])
  have hcooked : p (.ofText? cooked) := by
    cases cooked with
    | none => exact hp.null
    | some s => exact h (.text s) (by simp [leaves])
  exact hp.object_two (by decide) hcooked (by decide) hraw

mutual

/-- A hereditary property holds of a written node if it holds of the leaves. -/
theorem Node.value_of_leaves {p : Value → Prop} (hp : Value.Hereditary p) {k : Kind} :
    ∀ n : Node k, (∀ leaf ∈ n.leaves, p leaf.value) → p n.value
  | .mk fields, h => by
      refine hp.object _ (List.forall_mem_cons.mpr ⟨?_, ?_⟩)
      · exact ⟨hp.shortText "type" (by decide), hp.shortText _ k.utf8ByteSize_name_lt⟩
      · exact fields.members_of_leaves hp k.utf8ByteSize_fieldName_lt h

theorem Fields.members_of_leaves
    {p : Value → Prop} (hp : Value.Hereditary p) {fs : List FieldSpec} :
    ∀ fields : Fields fs, (∀ f ∈ fs, f.name.utf8ByteSize < 32) →
      (∀ leaf ∈ fields.leaves, p leaf.value) → ∀ m ∈ fields.members, p (.text m.1) ∧ p m.2
  | .nil, _, _ => List.forall_mem_nil _
  | .cons value rest, hnames, h => by
      obtain ⟨hname, hnames⟩ := List.forall_mem_cons.mp hnames
      obtain ⟨hvalue, hrest⟩ := List.forall_mem_append.mp h
      refine List.forall_mem_append.mpr ⟨?_, rest.members_of_leaves hp hnames hrest⟩
      intro m hm
      obtain ⟨v, hv, rfl⟩ := Option.map_eq_some_iff.mp (Option.mem_toList.mp hm)
      exact ⟨hp.shortText _ hname, value.value?_of_leaves hp hvalue v hv⟩

theorem FieldValue.value?_of_leaves
    {p : Value → Prop} (hp : Value.Hereditary p) {t : FieldType} :
    ∀ value : FieldValue t, (∀ leaf ∈ value.leaves, p leaf.value) → ∀ v ∈ value.value?, p v
  | .flag b, _, _, hv => by
      cases hv
      exact hp.bool b
  | .text s, h, _, hv => by
      cases hv
      exact h (.text s) (List.mem_singleton.mpr rfl)
  | .optionalText none, _, _, hv => nomatch hv
  | .optionalText (some s), h, _, hv => by
      cases hv
      exact h (.text s) (List.mem_singleton.mpr rfl)
  | .literal v, h, _, hv => by
      cases hv
      exact v.value_of_leaves hp h
  | .template v, h, _, hv => by
      cases hv
      exact v.value_of_leaves hp h
  | .word w, _, _, hv => by
      cases hv
      exact hp.shortText _ (Word.utf8ByteSize_text_lt _ w)
  | .one child, h, _, hv => by
      cases hv
      exact child.value_of_leaves hp h
  | .absent, _, _, hv => by
      cases hv
      exact hp.null
  | .present child, h, _, hv => by
      cases hv
      exact child.value_of_leaves hp h
  | .many items, h, _, hv => by
      cases hv
      exact hp.array _ (items.values_of_leaves hp h)
  | .holes items, h, _, hv => by
      cases hv
      exact hp.array _ (items.values_of_leaves hp h)

theorem Items.values_of_leaves
    {p : Value → Prop} (hp : Value.Hereditary p) {g : Bool} {s : Slot} :
    ∀ items : Items g s, (∀ leaf ∈ items.leaves, p leaf.value) → ∀ v ∈ items.values, p v
  | .nil, _ => List.forall_mem_nil _
  | .cons child rest, h => by
      obtain ⟨hchild, hrest⟩ := List.forall_mem_append.mp h
      exact List.forall_mem_cons.mpr
        ⟨child.value_of_leaves hp hchild, rest.values_of_leaves hp hrest⟩
  | .hole rest, h => List.forall_mem_cons.mpr ⟨hp.null, rest.values_of_leaves hp h⟩

theorem Occupant.value_of_leaves {p : Value → Prop} (hp : Value.Hereditary p) {s : Slot} :
    ∀ child : Occupant s, (∀ leaf ∈ child.leaves, p leaf.value) → p child.value
  | .mk _ node, h => node.value_of_leaves hp h

end

/-! ## Two such properties -/

namespace Value

theorem hereditary_normalize_eq : Hereditary fun v => v.normalize = v where
  null := rfl
  bool _ := rfl
  shortText _ _ := rfl
  array items h := by
    rw [normalize, normalizeItems_eq_map, List.map_congr_left h, List.map_id']
  object members h := by
    have hmembers : members.map (fun m => (m.1, m.2.normalize)) = members.map id :=
      List.map_congr_left fun m hm => Prod.ext rfl (h m hm).2
    rw [normalize, normalizeMembers_eq_map, hmembers, List.map_id]

theorem hereditary_texts
    {p : String → Prop} (hp : ∀ s : String, s.utf8ByteSize < 32 → p s) :
    Hereditary fun v => ∀ s ∈ v.texts, p s where
  null := List.forall_mem_nil _
  bool _ := List.forall_mem_nil _
  shortText s hs := List.forall_mem_singleton.mpr (hp s hs)
  array items h := by
    rw [texts, textsItems_eq_flatMap, List.forall_mem_flatMap]
    exact h
  object members h := by
    rw [texts, textsMembers_eq_flatMap, List.forall_mem_flatMap]
    intro m hm
    exact List.forall_mem_cons.mpr ⟨List.forall_mem_singleton.mp (h m hm).1, (h m hm).2⟩

end Value

namespace AnyNode

/-- A tree without infinities and NaNs is written without loss. -/
theorem normalize_value
    {n : AnyNode} (h : ∀ x, .number x ∈ n.leaves → x.isFinite = true) :
    n.value.normalize = n.value := by
  apply n.node.value_of_leaves Value.hereditary_normalize_eq
  intro leaf hleaf
  cases leaf with
  | text s => rfl
  | number x =>
      rw [Leaf.value, LiteralValue.numberValue]
      split
      · rfl
      · rw [Value.normalize, if_pos (h x hleaf)]

/-- What holds of all short texts and of the texts in a tree holds of all texts
in its written form. -/
theorem forall_texts_value
    {n : AnyNode} {p : String → Prop} (hp : ∀ s : String, s.utf8ByteSize < 32 → p s)
    (h : ∀ s, .text s ∈ n.leaves → p s) :
    ∀ s ∈ n.value.texts, p s := by
  apply n.node.value_of_leaves (Value.hereditary_texts hp)
  intro leaf hleaf
  cases leaf with
  | text s => exact List.forall_mem_singleton.mpr (h s hleaf)
  | number x =>
      rw [Leaf.value, LiteralValue.numberValue]
      split <;> exact List.forall_mem_nil _

end AnyNode

end EcmaTree
