import EcmaTree.Proofs.Dyadic
import EcmaTree.Proofs.Leaves
import EcmaTree.Proofs.RoundTrip
import EcmaTree.Tree.Writing

/-!
# Trees are written without loss

Two trees that are written as the same bytes are the same tree, if they contain
neither infinities nor NaNs nor texts whose length cannot be written.  The bytes
determine the value of a tree, as decoding shows, and the value determines the
tree: names tell the kinds and fields apart, an absent field is not written like
a present one, and a number is written as an integer only if the integer gives
back all of its bits.
-/

namespace EcmaTree

/-! ## Names and words -/

theorem Kind.mem_all (k : Kind) : k ∈ Kind.all := by
  cases k <;> decide

/-- The name of a kind tells it from all others. -/
theorem Kind.ofName?_name (k : Kind) : Kind.ofName? k.name = some k := by
  have hall : ∀ k ∈ Kind.all, Kind.ofName? k.name = some k := by decide +kernel
  exact hall k k.mem_all

theorem Kind.name_injective : Function.Injective Kind.name := by
  intro k l h
  have hk := k.ofName?_name
  rw [h, l.ofName?_name] at hk
  exact (Option.some.inj hk).symm

/-- The spelling of a word tells it from all others of its list. -/
theorem Word.ofText?_text (v : Vocabulary) (w : v.Entry) :
    Word.ofText? v.Entry (Word.text w) = some w := by
  cases v <;> cases w <;> rfl

theorem Word.text_injective (v : Vocabulary) :
    Function.Injective (Word.text : v.Entry → String) := by
  intro w w' h
  have hw := ofText?_text v w
  rw [h, ofText?_text v w'] at hw
  exact (Option.some.inj hw).symm

/-! ## Literals and templates -/

namespace LiteralValue

/-- A number that may be written as an integer is determined by it, its sign
included. -/
theorem eq_of_isInteger
    {x y : Binary64} (hx : isInteger x = true) (hy : isInteger y = true)
    (h : x.toInt64 = y.toInt64) : x = y := by
  simp only [isInteger, Bool.and_eq_true, Bool.not_eq_true', beq_eq_false_iff_ne] at hx hy
  rw [h] at hx
  obtain ⟨⟨hxvalue, hxsign⟩, -⟩ := hx
  obtain ⟨⟨hyvalue, hysign⟩, -⟩ := hy
  apply Binary64.eq_of_sign_of_magnitude
  · rw [Bool.eq_not_of_ne hxsign, Bool.eq_not_of_ne hysign]
  · rw [← Binary64.magnitude_eq_of_eq hxvalue, ← Binary64.magnitude_eq_of_eq hyvalue]

theorem numberValue_eq_int_or_float (x : Binary64) :
    numberValue x = .int x.toInt64 ∨ numberValue x = .float x := by
  unfold numberValue
  split
  · exact .inl rfl
  · exact .inr rfl

theorem numberValue_injective : Function.Injective numberValue := by
  intro x y h
  unfold numberValue at h
  split at h <;> split at h
  next hx hy => exact eq_of_isInteger hx hy (Value.int.inj h)
  · cases h
  · cases h
  · exact Value.float.inj h

theorem value_injective : Function.Injective value := by
  intro v w h
  cases v with
  | number x =>
      cases w with
      | number y => exact congrArg number (numberValue_injective h)
      | _ => rcases numberValue_eq_int_or_float x with hx | hx <;> simp [value, hx] at h
  | _ =>
      cases w with
      | number y => rcases numberValue_eq_int_or_float y with hy | hy <;> simp [value, hy] at h
      | _ => simp_all [value]

end LiteralValue

theorem TemplateValue.value_injective : Function.Injective value := by
  rintro ⟨cooked, raw⟩ ⟨cooked', raw'⟩ h
  cases cooked <;> cases cooked' <;> simp_all [value, Value.ofText?]

/-! ## Trees -/

/-- A node is not written like an absent one. -/
theorem Occupant.value_ne_null {s : Slot} (child : Occupant s) : child.value ≠ .null := by
  obtain ⟨_, ⟨fields⟩⟩ := child
  simp [value, Node.value]

theorem Fields.name_mem_of_mem_members {m : String × Value} :
    ∀ {fs : List FieldSpec} (fields : Fields fs), m ∈ fields.members →
      m.1 ∈ fs.map FieldSpec.name
  | _, .nil, h => nomatch h
  | _, .cons value rest, h => by
      rw [members, List.mem_append] at h
      rcases h with h | h
      · obtain ⟨v, -, rfl⟩ := Option.map_eq_some_iff.mp (Option.mem_toList.mp h)
        exact List.mem_cons_self
      · exact List.mem_cons_of_mem _ (rest.name_mem_of_mem_members h)

theorem Fields.name_ne_of_mem_members
    {fs : List FieldSpec} {name : String} (fields : Fields fs)
    (h : name ∉ fs.map FieldSpec.name) :
    ∀ m ∈ fields.members, m.1 ≠ name := by
  rintro m hm rfl
  exact h (fields.name_mem_of_mem_members hm)

/-- A member that may be left out can be told from the members that follow, if
these have other names. -/
theorem member_append_injective
    {name : String} {v v' : Option Value} {rest rest' : List (String × Value)}
    (hrest : ∀ m ∈ rest, m.1 ≠ name) (hrest' : ∀ m ∈ rest', m.1 ≠ name)
    (h : (v.map (name, ·)).toList ++ rest = (v'.map (name, ·)).toList ++ rest') :
    v = v' ∧ rest = rest' := by
  cases v with
  | none =>
      cases v' with
      | none => exact ⟨rfl, h⟩
      | some value =>
          have hmem : (name, value) ∈ rest := by
            change rest = (name, value) :: rest' at h
            rw [h]
            exact List.mem_cons_self
          exact absurd rfl (hrest _ hmem)
  | some value =>
      cases v' with
      | none =>
          have hmem : (name, value) ∈ rest' := by
            change (name, value) :: rest = rest' at h
            rw [← h]
            exact List.mem_cons_self
          exact absurd rfl (hrest' _ hmem)
      | some value' => simpa using h

mutual

/-- The value of a node determines the node, its kind included. -/
theorem Node.value_injective {k l : Kind} :
    ∀ (a : Node k) (b : Node l), a.value = b.value → (⟨a⟩ : AnyNode) = ⟨b⟩
  | .mk fields, .mk fields', h => by
      simp only [Node.value, Value.object.injEq, List.cons.injEq, Prod.mk.injEq, true_and,
        Value.text.injEq] at h
      obtain ⟨hname, hmembers⟩ := h
      have hkind : k = l := Kind.name_injective hname
      subst hkind
      rw [fields.members_injective fields' k.nodup_fieldNames hmembers]
termination_by structural a => a

theorem Fields.members_injective {fs : List FieldSpec} :
    ∀ a b : Fields fs, (fs.map FieldSpec.name).Nodup → a.members = b.members → a = b
  | .nil, .nil, _, _ => rfl
  | .cons (f := f) value rest, .cons value' rest', hnames, h => by
      obtain ⟨hfresh, hnames⟩ := List.nodup_cons.mp hnames
      -- A field that is left out is not mistaken for a later one, since names differ.
      obtain ⟨hvalue, hrest⟩ := member_append_injective
        (rest.name_ne_of_mem_members hfresh) (rest'.name_ne_of_mem_members hfresh) h
      rw [value.value?_injective value' hvalue, rest.members_injective rest' hnames hrest]
termination_by structural a => a

theorem FieldValue.value?_injective {t : FieldType} :
    ∀ a b : FieldValue t, a.value? = b.value? → a = b
  | .flag _, .flag _, h => by simpa [FieldValue.value?] using h
  | .text _, .text _, h => by simpa [FieldValue.value?] using h
  | .optionalText s, .optionalText s', h => by
      have hs : s = s' := Option.map_injective (fun _ _ => Value.text.inj) h
      rw [hs]
  | .literal _, .literal _, h => by rw [LiteralValue.value_injective (Option.some.inj h)]
  | .template _, .template _, h => by rw [TemplateValue.value_injective (Option.some.inj h)]
  | .word _, .word _, h => by rw [Word.text_injective _ (Value.text.inj (Option.some.inj h))]
  | .one child, .one child', h => by rw [child.value_injective child' (Option.some.inj h)]
  | .absent, .absent, _ => rfl
  | .absent, .present child, h => absurd (Option.some.inj h).symm child.value_ne_null
  | .present child, .absent, h => absurd (Option.some.inj h) child.value_ne_null
  | .present child, .present child', h => by rw [child.value_injective child' (Option.some.inj h)]
  | .many items, .many items', h => by
      rw [items.values_injective items' (Value.array.inj (Option.some.inj h))]
  | .holes items, .holes items', h => by
      rw [items.values_injective items' (Value.array.inj (Option.some.inj h))]
termination_by structural a => a

theorem Items.values_injective {g : Bool} {s : Slot} :
    ∀ a b : Items g s, a.values = b.values → a = b
  | .nil, .nil, _ => rfl
  | .cons child rest, .cons child' rest', h => by
      obtain ⟨hchild, hrest⟩ := List.cons.inj h
      rw [child.value_injective child' hchild, rest.values_injective rest' hrest]
  | .cons child _, .hole _, h => absurd (List.cons.inj h).1 child.value_ne_null
  | .hole _, .cons child _, h => absurd (List.cons.inj h).1.symm child.value_ne_null
  | .hole rest, .hole rest', h => by rw [rest.values_injective rest' (List.cons.inj h).2]
  | .nil, .cons _ _, h | .nil, .hole _, h | .cons _ _, .nil, h | .hole _, .nil, h => nomatch h
termination_by structural a => a

theorem Occupant.value_injective {s : Slot} :
    ∀ a b : Occupant s, a.value = b.value → a = b
  | .mk _ node, .mk _ node', h => by
      cases node.value_injective node' h
      rfl
termination_by structural a => a

end

/-! ## Bytes -/

/-- A finite number, or a text whose length can be written. -/
def Leaf.Encodable : Leaf → Prop
  | .number x => x.isFinite = true
  | .text s => s.utf8ByteSize < 2 ^ 63

/-- The encoding of a value determines the normalized value. -/
theorem Value.normalize_eq_of_encoding_eq
    {v w : Value}
    (hv : ∀ s ∈ v.texts, s.utf8ByteSize < 2 ^ 63) (hw : ∀ s ∈ w.texts, s.utf8ByteSize < 2 ^ 63)
    (h : v.encoding = w.encoding) :
    v.normalize = w.normalize := by
  have hdecode := Source.decode_encoding hv (Nat.le_max_left v.depth w.depth) [] 0
  rw [h, Source.decode_encoding hw (Nat.le_max_right v.depth w.depth) [] 0] at hdecode
  exact (Except.ok.inj (Prod.mk.inj hdecode).1).symm

namespace AnyNode

theorem events_encoding (n : AnyNode) : n.events.flatMap Event.encoding = n.value.encoding := by
  rw [← n.events_value, Value.encoding]

/-- A fresh checked writer accepts every tree. -/
theorem encode_eq (n : AnyNode) : n.encode = .ok n.value.encoding := by
  have haccept : Nesting.acceptAll {} (n.events.map Event.outline) = (.ok (), ⟨[], true⟩) := by
    rw [← n.events_value]
    exact Nesting.acceptAll_skeleton_empty n.value
  obtain ⟨w, hw, -, hflushes, haccepted⟩ :=
    Writer.writeEvents_of_acceptAll (w := Writer.checked {}) rfl rfl haccept
  simp only [encode, Writer.writeNode, hw, Writer.flush, Sink.flush_of_no_flushes hflushes,
    Except.mapError, Sink.flush_accepted, haccepted, n.events_encoding]
  rfl

theorem eq_of_encoding_eq
    {a b : AnyNode} (ha : ∀ leaf ∈ a.leaves, leaf.Encodable)
    (hb : ∀ leaf ∈ b.leaves, leaf.Encodable) (h : a.value.encoding = b.value.encoding) :
    a = b := by
  have htexts : ∀ {n : AnyNode}, (∀ leaf ∈ n.leaves, leaf.Encodable) →
      ∀ s ∈ n.value.texts, s.utf8ByteSize < 2 ^ 63 := by
    intro n hn
    refine forall_texts_value (fun s hs => Nat.lt_trans hs (by decide)) ?_
    intro s hs
    exact hn (.text s) hs
  have hnormalize := Value.normalize_eq_of_encoding_eq (htexts ha) (htexts hb) h
  rw [normalize_value fun x hx => ha (.number x) hx, normalize_value fun x hx => hb (.number x) hx]
    at hnormalize
  exact a.node.value_injective b.node hnormalize

end AnyNode

theorem Writer.writeNode_accepted_of_ok
    {w w' : Writer} {n : AnyNode} (h : w.writeNode n = (.ok (), w')) :
    w'.sink.accepted = w.sink.accepted ++ n.value.encoding := by
  rw [writeNode] at h
  split at h
  next w₁ hevents =>
    have hflush : w'.sink.accepted = w₁.sink.accepted := by
      rw [← Sink.flush_accepted w₁.sink]
      exact congrArg (fun answer => answer.2.sink.accepted) h.symm
    rw [hflush, writeEvents_accepted_of_ok hevents, n.events_encoding]
  · cases h

namespace AnyNode

/-- Trees with the same bytes are the same, bit by bit in their numbers, whether
the bytes are those of a fresh checked writer or any two writers have sent them
to whatever sinks. -/
theorem encode_lossless
    {a b : AnyNode} (ha : ∀ leaf ∈ a.leaves, leaf.Encodable)
    (hb : ∀ leaf ∈ b.leaves, leaf.Encodable) :
    (a.encode = b.encode → a = b) ∧
    ∀ (w w' wa wb : Writer) (bytes : List UInt8),
      w.writeNode a = (.ok (), wa) → w'.writeNode b = (.ok (), wb) →
      wa.sink.accepted = w.sink.accepted ++ bytes →
      wb.sink.accepted = w'.sink.accepted ++ bytes → a = b := by
  constructor
  · intro h
    rw [a.encode_eq, b.encode_eq] at h
    exact eq_of_encoding_eq ha hb (Except.ok.inj h)
  · intro w w' wa wb bytes hwa hwb hbytes hbytes'
    rw [Writer.writeNode_accepted_of_ok hwa] at hbytes
    rw [Writer.writeNode_accepted_of_ok hwb] at hbytes'
    exact eq_of_encoding_eq ha hb
      ((List.append_cancel_left hbytes).trans (List.append_cancel_left hbytes').symm)

/-- A number literal that stands as a statement. -/
def numberStatement (x : Binary64) : AnyNode :=
  ⟨(.mk (.cons (.one (.mk (k := .literal) (by decide)
    (.mk (.cons (.literal (.number x)) (.cons (.text "0") .nil)))))
    (.cons (.optionalText none) .nil)) : Node .expressionStatement)⟩

/-- Zero is written in one way only, and not like negative zero. -/
theorem encode_lossless_zeros :
    (numberStatement (.ofInt64 0)).encode = (numberStatement ⟨0⟩).encode ∧
      numberStatement (.ofInt64 0) = numberStatement ⟨0⟩ ∧
      (numberStatement ⟨0⟩).encode ≠ (numberStatement ⟨0x8000000000000000⟩).encode := by
  have hleaves : ∀ x : Binary64, x.isFinite = true →
      ∀ leaf ∈ (numberStatement x).leaves, leaf.Encodable := by
    intro x hx
    have htext : "0".utf8ByteSize < 2 ^ 63 := by decide
    exact List.forall_mem_cons.mpr ⟨hx, List.forall_mem_singleton.mpr htext⟩
  refine ⟨rfl, (encode_lossless (hleaves _ rfl) (hleaves _ rfl)).1 rfl, ?_⟩
  intro h
  have hsame := (encode_lossless (hleaves _ rfl) (hleaves _ rfl)).1 h
  have hsame := congrArg leaves hsame
  revert hsame
  decide

end AnyNode

end EcmaTree
