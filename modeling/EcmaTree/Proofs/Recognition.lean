import EcmaTree.Proofs.Frames
import EcmaTree.Proofs.Grammar
import EcmaTree.Proofs.Packing
import EcmaTree.Proofs.Spelling
import EcmaTree.Wire.Encoding

/-!
# What the reading functions recognize

A reading function recognizes a relation between bytes and results if, on data
without faults, it succeeds exactly on data that begin with related bytes and
reads these bytes only.  Recognition passes from the parts of a computation to
the whole, so each reading function is described by a relation of the grammar.
-/

namespace EcmaTree.Decoder

/-- On data without faults, `m` gives `a` exactly if the data begin with bytes
related to `a`, which are then read. -/
def Recognizes {α : Type} (m : Decode α) (relation : List UInt8 → α → Prop) : Prop :=
  ∀ (data : List UInt8) (position : Nat) (a : α) (source : Source),
    m ⟨data, position, []⟩ = .ok a source ↔
      ∃ c rest, relation c a ∧ data = c ++ rest ∧ source = ⟨rest, position + c.length, []⟩

/-! ## Combinators -/

section Combinators

variable {α β : Type}

theorem Recognizes.of_iff
    {m : Decode α} {relation other : List UInt8 → α → Prop}
    (h : Recognizes m relation) (hiff : ∀ c a, relation c a ↔ other c a) :
    Recognizes m other := by
  intro data position a source
  simp only [h data position a source, hiff]

theorem recognizes_pure (a : α) :
    Recognizes (pure a) fun c b => c = [] ∧ b = a := by
  intro data position b source
  constructor
  · intro h
    cases h
    exact ⟨[], data, ⟨rfl, rfl⟩, rfl, rfl⟩
  · rintro ⟨c, rest, ⟨rfl, rfl⟩, rfl, rfl⟩
    rfl

theorem recognizes_throw (error : DecodeError) :
    Recognizes (throw error : Decode α) fun _ _ => False := by
  intro data position b source
  constructor
  · intro h
    cases h
  · rintro ⟨c, rest, h, -⟩
    exact h.elim

theorem recognizes_map
    {m : Decode α} {relation : List UInt8 → α → Prop} (h : Recognizes m relation) (f : α → β) :
    Recognizes (f <$> m) fun c b => ∃ a, relation c a ∧ b = f a := by
  intro data position b source
  have hm := h data position
  simp only [Functor.map, EStateM.map]
  constructor
  · intro heq
    cases hrun : m ⟨data, position, []⟩ with
    | error e s =>
        rw [hrun] at heq
        cases heq
    | ok a s =>
        rw [hrun] at heq
        cases heq
        obtain ⟨c, rest, hrel, hdata, hsource⟩ := (hm a source).mp hrun
        exact ⟨c, rest, ⟨a, hrel, rfl⟩, hdata, hsource⟩
  · rintro ⟨c, rest, ⟨a, hrel, rfl⟩, hdata, hsource⟩
    rw [(hm a source).mpr ⟨c, rest, hrel, hdata, hsource⟩]

theorem recognizes_bind
    {m : Decode α} {f : α → Decode β}
    {relation : List UInt8 → α → Prop} {next : α → List UInt8 → β → Prop}
    (hm : Recognizes m relation) (hf : ∀ a, Recognizes (f a) (next a)) :
    Recognizes (m >>= f) fun c b => ∃ a c₁ c₂, c = c₁ ++ c₂ ∧ relation c₁ a ∧ next a c₂ b := by
  intro data position b source
  simp only [bind, EStateM.bind]
  constructor
  · intro heq
    cases hrun : m ⟨data, position, []⟩ with
    | error e s =>
        rw [hrun] at heq
        cases heq
    | ok a s =>
        rw [hrun] at heq
        obtain ⟨c₁, rest₁, hrel₁, rfl, rfl⟩ := (hm data position a s).mp hrun
        obtain ⟨c₂, rest₂, hrel₂, rfl, rfl⟩ := (hf a _ _ b source).mp heq
        refine ⟨c₁ ++ c₂, rest₂, ⟨a, c₁, c₂, rfl, hrel₁, hrel₂⟩, ?_, ?_⟩
        · rw [List.append_assoc]
        · rw [List.length_append, Nat.add_assoc]
  · rintro ⟨c, rest, ⟨a, c₁, c₂, rfl, hrel₁, hrel₂⟩, rfl, rfl⟩
    have hfirst := (hm (c₁ ++ c₂ ++ rest) position a ⟨c₂ ++ rest, position + c₁.length, []⟩).mpr
      ⟨c₁, c₂ ++ rest, hrel₁, List.append_assoc _ _ _, rfl⟩
    rw [hfirst]
    refine (hf a _ _ b _).mpr ⟨c₂, rest, hrel₂, rfl, ?_⟩
    rw [List.length_append, Nat.add_assoc]

end Combinators

/-! ## Bytes and numbers -/

theorem recognizes_takeBytes (n : Nat) :
    Recognizes (takeBytes n) fun c bytes => c = bytes ∧ c.length = n := by
  intro data position bytes source
  simp only [takeBytes, Source.take, Source.takePast, Source.takePlain, List.length_take]
  constructor
  · intro h
    split at h
    next heq =>
      split at heq
      next hlen =>
        cases heq
        cases h
        refine ⟨data.take n, data.drop n, ⟨rfl, by simpa using hlen⟩, ?_, ?_⟩
        · rw [List.take_append_drop]
        · rw [List.length_take, hlen]
      · cases heq
    · cases h
  · rintro ⟨c, rest, ⟨rfl, rfl⟩, rfl, rfl⟩
    simp

theorem recognizes_takeByte :
    Recognizes takeByte fun c b => c = [b] := by
  refine (recognizes_map (recognizes_takeBytes 1) (·.headD 0)).of_iff ?_
  intro c b
  constructor
  · rintro ⟨bytes, ⟨rfl, hlen⟩, rfl⟩
    obtain ⟨x, rfl⟩ := List.length_eq_one_iff.mp hlen
    rfl
  · rintro rfl
    exact ⟨[b], ⟨rfl, rfl⟩, rfl⟩

theorem recognizes_takeInt32 :
    Recognizes takeInt32 fun c i => ∃ j, c = LittleEndian.packInt32 j ∧ i = j.toInt64 := by
  refine (recognizes_map (recognizes_takeBytes 4) _).of_iff ?_
  intro c i
  constructor
  · rintro ⟨bytes, ⟨rfl, hlen⟩, rfl⟩
    exact ⟨_, (LittleEndian.packInt32_unpackInt32 hlen).symm, rfl⟩
  · rintro ⟨j, rfl, rfl⟩
    exact ⟨_, ⟨rfl, LittleEndian.length_packInt32 j⟩, by simp⟩

theorem recognizes_takeInt64 :
    Recognizes takeInt64 fun c i => c = LittleEndian.packInt64 i := by
  refine (recognizes_map (recognizes_takeBytes 8) _).of_iff ?_
  intro c i
  constructor
  · rintro ⟨bytes, ⟨rfl, hlen⟩, rfl⟩
    exact (LittleEndian.packInt64_unpackInt64 hlen).symm
  · rintro rfl
    exact ⟨_, ⟨rfl, LittleEndian.length_packInt64 i⟩, by simp⟩

theorem recognizes_takeBinary64 :
    Recognizes takeBinary64 fun c x => c = LittleEndian.packBinary64 x := by
  refine (recognizes_map (recognizes_takeBytes 8) _).of_iff ?_
  intro c x
  constructor
  · rintro ⟨bytes, ⟨rfl, hlen⟩, rfl⟩
    exact (LittleEndian.packBinary64_unpackBinary64 hlen).symm
  · rintro rfl
    exact ⟨_, ⟨rfl, LittleEndian.length_packBinary64 x⟩, by simp⟩

/-! ## Texts -/

theorem recognizes_takeLengthInteger (b : UInt8) :
    Recognizes (takeLengthInteger b) fun c i =>
      (b = Tag.int32.byte ∧ ∃ j, c = LittleEndian.packInt32 j ∧ i = j.toInt64) ∨
        (b = Tag.int64.byte ∧ c = LittleEndian.packInt64 i) := by
  unfold takeLengthInteger
  split
  next ht =>
    obtain rfl := Tag.ofByte?_eq_some_iff.mp ht
    exact recognizes_takeInt32.of_iff (by simp)
  next ht =>
    obtain rfl := Tag.ofByte?_eq_some_iff.mp ht
    exact recognizes_takeInt64.of_iff (by simp)
  next hint32 hint64 =>
    refine (recognizes_throw _).of_iff ?_
    intro c i
    constructor
    · exact False.elim
    · rintro (⟨rfl, -⟩ | ⟨rfl, -⟩)
      · exact hint32 (Tag.ofByte?_byte .int32)
      · exact hint64 (Tag.ofByte?_byte .int64)

theorem recognizes_lengthOfInteger (i : Int64) :
    Recognizes (lengthOfInteger i) fun c n => c = [] ∧ 0 ≤ i.toInt ∧ n = i.toInt.toNat := by
  unfold lengthOfInteger
  split
  next hneg =>
    refine (recognizes_throw _).of_iff ?_
    intro c n
    constructor
    · exact False.elim
    · rintro ⟨-, hnonneg, -⟩
      omega
  next hnonneg =>
    refine (recognizes_pure _).of_iff ?_
    intro c n
    simp [Int.not_lt.mp hnonneg]

theorem recognizes_takeLength :
    Recognizes takeLength fun c n => Grammar.Integer c n := by
  refine (recognizes_bind (recognizes_bind recognizes_takeByte recognizes_takeLengthInteger)
    recognizes_lengthOfInteger).of_iff ?_
  intro c n
  rw [Grammar.integer_iff]
  constructor
  · rintro ⟨i, c₁, c₂, rfl, ⟨b, d₁, d₂, rfl, rfl, h⟩, rfl, hnonneg, rfl⟩
    rw [List.append_nil, Int.toNat_of_nonneg hnonneg]
    rcases h with ⟨rfl, j, rfl, rfl⟩ | ⟨rfl, rfl⟩
    · exact .inl ⟨j, rfl, Int32.toInt_toInt64 j⟩
    · exact .inr ⟨i, rfl, rfl⟩
  · rintro (⟨j, rfl, hj⟩ | ⟨j, rfl, hj⟩)
    · rw [← Int32.toInt_toInt64] at hj
      exact ⟨j.toInt64, _, [], (List.append_nil _).symm,
        ⟨Tag.int32.byte, [Tag.int32.byte], LittleEndian.packInt32 j, rfl, rfl,
          .inl ⟨rfl, j, rfl, rfl⟩⟩, rfl, by omega, by omega⟩
    · exact ⟨j, _, [], (List.append_nil _).symm,
        ⟨Tag.int64.byte, [Tag.int64.byte], LittleEndian.packInt64 j, rfl, rfl,
          .inr ⟨rfl, rfl⟩⟩, rfl, by omega, by omega⟩

theorem recognizes_textOfBytes (bytes : List UInt8) :
    Recognizes (textOfBytes bytes) fun c s => c = [] ∧ bytes = Utf8.encode s := by
  unfold textOfBytes
  split
  next t ht =>
    refine (recognizes_pure t).of_iff ?_
    intro c s
    rw [Utf8.decode_eq_ok_iff] at ht
    rw [ht, Utf8.encode_injective.eq_iff, eq_comm (a := t)]
  next ht =>
    refine (recognizes_throw _).of_iff ?_
    intro c s
    constructor
    · exact False.elim
    · rintro ⟨-, rfl⟩
      rw [Utf8.decode_encode] at ht
      cases ht

theorem recognizes_takeText (b : UInt8) :
    Recognizes (takeText b) fun c s => Grammar.Text (b :: c) s := by
  unfold takeText
  split
  next ht =>
    obtain rfl := Tag.ofByte?_eq_some_iff.mp ht
    refine (recognizes_bind (recognizes_takeBytes 1) recognizes_textOfBytes).of_iff ?_
    intro c s
    rw [Grammar.text_cons_iff]
    constructor
    · rintro ⟨bytes, c₁, c₂, rfl, ⟨rfl, hlen⟩, rfl, hbytes⟩
      obtain ⟨x, rfl⟩ := List.length_eq_one_iff.mp hlen
      obtain ⟨hx, rfl⟩ := Utf8.encode_eq_singleton_iff.mp hbytes.symm
      exact .inl ⟨rfl, x, hx, rfl, rfl⟩
    · rintro (⟨-, x, hx, rfl, rfl⟩ | ⟨htag, -⟩)
      · exact ⟨[x], [x], [], rfl, ⟨rfl, rfl⟩, rfl, (Utf8.encode_singleton_ofUInt8 hx).symm⟩
      · simp at htag
  next ht =>
    obtain rfl := Tag.ofByte?_eq_some_iff.mp ht
    refine (recognizes_bind (recognizes_bind recognizes_takeLength recognizes_takeBytes)
      recognizes_textOfBytes).of_iff ?_
    intro c s
    rw [Grammar.text_cons_iff, ← Utf8.encode_eq_flatMap]
    constructor
    · rintro ⟨bytes, c₁, c₂, rfl, ⟨n, header, data, rfl, hlength, rfl, rfl⟩, rfl, rfl⟩
      exact .inr ⟨rfl, header, hlength, List.append_nil _⟩
    · rintro (⟨htag, -⟩ | ⟨-, header, hlength, rfl⟩)
      · simp at htag
      · exact ⟨Utf8.encode s, _, [], (List.append_nil _).symm,
          ⟨_, header, Utf8.encode s, rfl, hlength, rfl, rfl⟩, rfl, rfl⟩
  next hchar hstring =>
    refine (recognizes_throw _).of_iff ?_
    intro c s
    rw [Grammar.text_cons_iff]
    constructor
    · exact False.elim
    · rintro (⟨rfl, -⟩ | ⟨rfl, -⟩)
      · exact hchar (Tag.ofByte?_byte .char)
      · exact hstring (Tag.ofByte?_byte .string)

/-! ## Starts of values -/

/-- What the first byte of a value and the bytes after it begin. -/
def Begins (b : UInt8) (c : List UInt8) : Value ⊕ Container → Prop
  | .inl v => Grammar.Scalar (b :: c) v
  | .inr k => c = [] ∧ b = k.startTag.byte

theorem Recognizes.begins
    {t : Tag} {m : Decode (Value ⊕ Container)} {relation : List UInt8 → Value ⊕ Container → Prop}
    (h : Recognizes m relation)
    (hscalar : ∀ c v, relation c (.inl v) ↔ Grammar.ScalarTail t c v)
    (hstart : ∀ c k, relation c (.inr k) ↔ c = [] ∧ t = k.startTag) :
    Recognizes m (Begins t.byte) := by
  refine h.of_iff ?_
  rintro c (v | k)
  · rw [hscalar, Begins, Grammar.scalar_tag_cons_iff]
  · rw [hstart, Begins, Tag.byte_inj]

theorem recognizes_takeStart (b : UInt8) :
    Recognizes (takeStart b) (Begins b) := by
  unfold takeStart
  cases htag : Tag.ofByte? b with
  | none =>
      have hb : ∀ t : Tag, b ≠ t.byte := Tag.ofByte?_eq_none_iff.mp htag
      refine (recognizes_throw _).of_iff ?_
      rintro c (v | k)
      · simp [Begins, Grammar.scalar_cons_iff, hb]
      · simp [Begins, hb]
  | some t =>
      obtain rfl := Tag.ofByte?_eq_some_iff.mp htag
      cases t with
      | null | true | false =>
          refine (recognizes_pure _).begins ?_ ?_
          · simp [Grammar.ScalarTail]
          · rintro c (_ | _) <;> simp [Container.startTag]
      | int32 =>
          refine (recognizes_map recognizes_takeInt32 _).begins ?_ ?_
          · intro c v
            constructor
            · rintro ⟨_, ⟨i, rfl, rfl⟩, hv⟩
              exact ⟨i, rfl, Sum.inl.inj hv⟩
            · rintro ⟨i, rfl, rfl⟩
              exact ⟨_, ⟨i, rfl, rfl⟩, rfl⟩
          · rintro c (_ | _) <;> simp [Container.startTag]
      | int64 =>
          refine (recognizes_map recognizes_takeInt64 _).begins ?_ ?_
          · simp [Grammar.ScalarTail]
          · rintro c (_ | _) <;> simp [Container.startTag]
      | float64 =>
          refine (recognizes_map recognizes_takeBinary64 _).begins ?_ ?_
          · simp [Grammar.ScalarTail]
          · rintro c (_ | _) <;> simp [Container.startTag]
      | char | string =>
          refine (recognizes_map (recognizes_takeText _) _).begins ?_ ?_
          · simp [Grammar.ScalarTail]
          · rintro c (_ | _) <;> simp [Container.startTag]
      | arrayStart | objectStart =>
          refine (recognizes_pure _).begins ?_ ?_
          · simp [Grammar.ScalarTail]
          · rintro c (_ | _) <;> simp [Container.startTag]
      | arrayEnd | objectEnd =>
          refine (recognizes_throw _).begins ?_ ?_
          · simp [Grammar.ScalarTail]
          · rintro c (_ | _) <;> simp [Container.startTag]

/-! ## Steps -/

/-- The innermost frame, if there is one, awaits a value. -/
def ReadyForValue (stack : List Frame) : Prop :=
  ∀ frame ∈ stack.head?, frame.AwaitsValue

/-- What a step can do with a stack, and the bytes that make it do so. -/
inductive Advances (bound : Nat) : List Frame → List UInt8 → Progress → Prop where
  | scalar {stack : List Frame} {c : List UInt8} {v : Value}
      (hready : ReadyForValue stack) (hscalar : Grammar.Scalar c v) :
      Advances bound stack c (attach v stack)
  | start {stack : List Frame} (k : Container)
      (hready : ReadyForValue stack) (hbound : stack.length < bound) :
      Advances bound stack [k.startTag.byte] (.pending (Frame.fresh k :: stack))
  | name {members : List (String × Value)} {outer : List Frame} {c : List UInt8} {name : String}
      (hname : Grammar.Text c name) :
      Advances bound (.object members none :: outer) c
        (.pending (.object members (some name) :: outer))
  | close {frame : Frame} {outer : List Frame} (hclose : frame.name? = none) :
      Advances bound (frame :: outer) [frame.container.endTag.byte] (attach frame.close outer)

/-- A step whose first byte is `b` and that puts a value or opens a container. -/
def AdvancesByValue (bound : Nat) (stack : List Frame) (b : UInt8) (c : List UInt8)
    (progress : Progress) : Prop :=
  (∃ v, Grammar.Scalar (b :: c) v ∧ progress = attach v stack) ∨
    ∃ k : Container, c = [] ∧ b = k.startTag.byte ∧ stack.length < bound ∧
      progress = .pending (Frame.fresh k :: stack)

theorem recognizes_place (bound : Nat) (stack : List Frame) (start : Value ⊕ Container) :
    Recognizes (place bound stack start) fun c progress => c = [] ∧
      match start with
      | .inl v => progress = attach v stack
      | .inr k => stack.length < bound ∧ progress = .pending (Frame.fresh k :: stack) := by
  unfold place
  cases start with
  | inl v => exact recognizes_pure _
  | inr k =>
      by_cases hbound : bound ≤ stack.length
      · simp only [if_pos hbound]
        refine (recognizes_throw _).of_iff ?_
        simp [Nat.not_lt.mpr hbound]
      · simp only [if_neg hbound]
        refine (recognizes_pure _).of_iff ?_
        simp [Nat.not_le.mp hbound]

theorem recognizes_stepValue (bound : Nat) (stack : List Frame) (b : UInt8) :
    Recognizes (stepValue bound stack b) (AdvancesByValue bound stack b) := by
  refine (recognizes_bind (recognizes_takeStart b) (recognizes_place bound stack)).of_iff ?_
  intro c progress
  constructor
  · rintro ⟨start, c₁, c₂, rfl, hbegins, rfl, hplace⟩
    rw [List.append_nil]
    cases start with
    | inl v => exact .inl ⟨v, hbegins, hplace⟩
    | inr k => exact .inr ⟨k, hbegins.1, hbegins.2, hplace⟩
  · rintro (⟨v, hscalar, hplace⟩ | ⟨k, hc, hb, hplace⟩)
    · exact ⟨.inl v, c, [], (List.append_nil c).symm, hscalar, rfl, hplace⟩
    · exact ⟨.inr k, c, [], (List.append_nil c).symm, ⟨hc, hb⟩, rfl, hplace⟩

/-- Where a value may come next and no container ends, a step begins a value. -/
theorem advances_cons_iff_byValue
    {bound : Nat} {stack : List Frame} {b : UInt8} (hready : ReadyForValue stack)
    (hopen : ∀ frame ∈ stack.head?, frame.name? = none → b ≠ frame.container.endTag.byte)
    (c : List UInt8) (progress : Progress) :
    AdvancesByValue bound stack b c progress ↔ Advances bound stack (b :: c) progress := by
  constructor
  · rintro (⟨v, hscalar, rfl⟩ | ⟨k, rfl, rfl, hbound, rfl⟩)
    · exact .scalar hready hscalar
    · exact .start k hready hbound
  · intro h
    cases h with
    | scalar _ hscalar => exact .inl ⟨_, hscalar, rfl⟩
    | start k _ hbound => exact .inr ⟨k, rfl, rfl, hbound, rfl⟩
    | name => cases hready _ rfl
    | close hclose => exact absurd rfl (hopen _ rfl hclose)

/-- Where a container ends, a step closes it. -/
theorem advances_endTag_iff
    {bound : Nat} (frame : Frame) {outer : List Frame} (hclose : frame.name? = none)
    (c : List UInt8) (progress : Progress) :
    (c = [] ∧ progress = attach frame.close outer) ↔
      Advances bound (frame :: outer) (frame.container.endTag.byte :: c) progress := by
  constructor
  · rintro ⟨rfl, rfl⟩
    exact .close hclose
  · generalize hb : frame.container.endTag.byte = b
    intro h
    -- The byte of an end begins neither a value nor a name.
    cases h with
    | scalar _ hscalar =>
        rw [← hb, Grammar.scalar_tag_cons_iff] at hscalar
        cases hk : frame.container <;> rw [hk] at hscalar <;> exact hscalar.elim
    | start k =>
        rw [Tag.byte_inj] at hb
        cases hk : frame.container <;> cases k <;> rw [hk] at hb <;> cases hb
    | name hname =>
        subst hb
        rcases Grammar.text_cons_iff.mp hname with ⟨htag, -⟩ | ⟨htag, -⟩ <;>
          rw [Tag.byte_inj] at htag <;> cases htag
    | close => exact ⟨rfl, rfl⟩

/-- Where a name comes next, a step reads a name. -/
theorem advances_name_iff
    {bound : Nat} {members : List (String × Value)} {outer : List Frame} {b : UInt8}
    (hb : b ≠ Tag.objectEnd.byte) (c : List UInt8) (progress : Progress) :
    (∃ name, Grammar.Text (b :: c) name ∧
        progress = .pending (.object members (some name) :: outer)) ↔
      Advances bound (.object members none :: outer) (b :: c) progress := by
  constructor
  · rintro ⟨name, hname, rfl⟩
    exact .name hname
  · intro h
    cases h with
    | scalar hready | start _ hready => cases hready _ rfl
    | name hname => exact ⟨_, hname, rfl⟩
    | close => exact absurd rfl hb

theorem recognizes_stepByte (bound : Nat) (stack : List Frame) (b : UInt8) :
    Recognizes (stepByte bound stack b) fun c progress =>
      Advances bound stack (b :: c) progress := by
  rcases stack with _ | ⟨frame, outer⟩
  · exact (recognizes_stepValue bound [] b).of_iff
      (advances_cons_iff_byValue (by simp [ReadyForValue]) (by simp))
  · rcases frame with items | ⟨members, _ | name⟩
    · rw [stepByte]
      by_cases hb : b = Tag.arrayEnd.byte
      · rw [if_pos hb, hb]
        exact (recognizes_pure _).of_iff (advances_endTag_iff (.array items) rfl)
      · rw [if_neg hb]
        refine (recognizes_stepValue bound _ b).of_iff (advances_cons_iff_byValue ?_ ?_)
        · rintro frame ⟨⟩
          trivial
        · rintro frame ⟨⟩ -
          exact hb
    · rw [stepByte]
      by_cases hb : b = Tag.objectEnd.byte
      · rw [if_pos hb, hb]
        exact (recognizes_pure _).of_iff (advances_endTag_iff (.object members none) rfl)
      · rw [if_neg hb]
        exact (recognizes_map (recognizes_takeText b) _).of_iff (advances_name_iff hb)
    · refine (recognizes_stepValue bound _ b).of_iff (advances_cons_iff_byValue ?_ ?_)
      · rintro frame ⟨⟩
        rfl
      · rintro frame ⟨⟩ hname
        cases hname

theorem Advances.ne_nil
    {bound : Nat} {stack : List Frame} {c : List UInt8} {progress : Progress}
    (h : Advances bound stack c progress) :
    c ≠ [] := by
  cases h with
  | scalar _ hscalar => exact hscalar.ne_nil
  | start | close => exact List.cons_ne_nil _ _
  | name hname =>
      rintro rfl
      cases hname

theorem recognizes_step (bound : Nat) (stack : List Frame) :
    Recognizes (step bound stack) (Advances bound stack) := by
  refine (recognizes_bind recognizes_takeByte (recognizes_stepByte bound stack)).of_iff ?_
  intro c progress
  constructor
  · rintro ⟨b, c₁, c₂, rfl, rfl, h⟩
    exact h
  · intro h
    obtain ⟨b, c', rfl⟩ := List.exists_cons_of_ne_nil h.ne_nil
    exact ⟨b, [b], c', rfl, rfl, h⟩

end EcmaTree.Decoder
