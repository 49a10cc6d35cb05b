import EcmaTree.Proofs.DepthBound

/-!
# Tags that are refused

A tag is read in three places: where a value begins, where the name of a member
begins, and where the length of a text does.  Each place admits certain tags, and
an open container may be ended where an item of it could begin.  Any other byte is
refused as soon as it is read, and no data that go on with it denote a value.

What is said of a refused byte is meant to depend on whether it is a tag at all.
Where a value is expected it does.  In the other two places it is always called
an unexpected tag, even if it is no tag.
-/

namespace EcmaTree

/-! ## Errors about tags -/

namespace DecodeError

/-- The byte that an error about a tag names. -/
def tagByte? : DecodeError → Option UInt8
  | .invalidTag b => some b
  | .unexpectedTag _ b => some b
  | _ => none

/-- The byte that is called an invalid tag is no tag, and the one that is called
an unexpected tag is one. -/
def NamesTagRightly : DecodeError → Prop
  | .invalidTag b => ∀ t : Tag, b ≠ t.byte
  | .unexpectedTag _ b => ∃ t : Tag, b = t.byte
  | _ => True

end DecodeError

namespace Expectation

/-- Whether a tag begins what is expected. -/
def admits : Expectation → Tag → Bool
  | .value, t => t != .arrayEnd && t != .objectEnd
  | .text, t => t == .char || t == .string
  | .textLength, t => t == .int32 || t == .int64

/-- A byte that does not begin what is expected. -/
def Refuses (wanted : Expectation) (b : UInt8) : Prop :=
  ∀ t ∈ Tag.ofByte? b, wanted.admits t = false

/-- The error about a byte that is refused. -/
def complaint (wanted : Expectation) (b : UInt8) : DecodeError :=
  if wanted = .value ∧ Tag.ofByte? b = none then .invalidTag b else .unexpectedTag wanted b

theorem complaint_eq_or (wanted : Expectation) (b : UInt8) :
    (wanted.complaint b = .invalidTag b ∧ ∀ t : Tag, b ≠ t.byte) ∨
      wanted.complaint b = .unexpectedTag wanted b := by
  rw [complaint]
  split
  next h => exact .inl ⟨rfl, Tag.ofByte?_eq_none_iff.mp h.2⟩
  next => exact .inr rfl

@[simp] theorem tagByte?_complaint (wanted : Expectation) (b : UInt8) :
    (wanted.complaint b).tagByte? = some b := by
  rcases wanted.complaint_eq_or b with ⟨h, -⟩ | h <;> rw [h] <;> rfl

/-- A refused byte is named rightly where a value is expected, or else if it is a
tag. -/
theorem namesTagRightly_complaint_iff (wanted : Expectation) (b : UInt8) :
    (wanted.complaint b).NamesTagRightly ↔ wanted = .value ∨ ∃ t : Tag, b = t.byte := by
  rw [complaint]
  split
  next h => exact iff_of_true (Tag.ofByte?_eq_none_iff.mp h.2) (.inl h.1)
  next h =>
    constructor
    · exact .inr
    · rintro (hvalue | htag)
      · by_contra hnone
        exact h ⟨hvalue, Tag.ofByte?_eq_none_iff.mpr (not_exists.mp hnone)⟩
      · exact htag

end Expectation

namespace Decoder

/-! ## What the reading functions refuse -/

/-- On data without faults, `m` ends with an error about a tag exactly if the data
begin with bytes related to the error, which are then read. -/
def Rejects {α : Type} (m : Decode α) (relation : List UInt8 → DecodeError → Prop) : Prop :=
  ∀ (data : List UInt8) (position : Nat) (error : DecodeError) (source : Source),
    error.tagByte? ≠ none →
      (m ⟨data, position, []⟩ = .error error source ↔
        ∃ c rest, relation c error ∧ data = c ++ rest ∧ source = ⟨rest, position + c.length, []⟩)

/-- A computation that has nothing to say about tags. -/
def Quiet {α : Type} (m : Decode α) : Prop :=
  Rejects m fun _ _ => False

section Combinators

variable {α β : Type}

theorem Rejects.of_iff
    {m : Decode α} {relation other : List UInt8 → DecodeError → Prop}
    (h : Rejects m relation) (hiff : ∀ c error, relation c error ↔ other c error) :
    Rejects m other := by
  intro data position error source herror
  simp only [h data position error source herror, hiff]

theorem quiet_iff {m : Decode α} :
    Quiet m ↔ ∀ (data : List UInt8) (position : Nat) (error : DecodeError) (source : Source),
      m ⟨data, position, []⟩ = .error error source → error.tagByte? = none := by
  constructor
  · intro h data position error source herror
    by_contra htag
    obtain ⟨_, _, hfalse, -⟩ := (h data position error source htag).mp herror
    exact hfalse
  · intro h data position error source htag
    constructor
    · intro herror
      exact absurd (h data position error source herror) htag
    · rintro ⟨_, _, hfalse, -⟩
      exact hfalse.elim

theorem quiet_pure (a : α) : Quiet (pure a : Decode α) := by
  rw [quiet_iff]
  intro data position error source h
  cases h

theorem quiet_throw {error : DecodeError} (h : error.tagByte? = none) :
    Quiet (throw error : Decode α) := by
  rw [quiet_iff]
  intro data position error' source h'
  cases h'
  exact h

theorem rejects_throw (error : DecodeError) :
    Rejects (throw error : Decode α) fun c error' => c = [] ∧ error' = error := by
  intro data position error' source _
  constructor
  · intro h
    cases h
    exact ⟨[], data, ⟨rfl, rfl⟩, rfl, rfl⟩
  · rintro ⟨c, rest, ⟨rfl, rfl⟩, rfl, rfl⟩
    rfl

/-- A computation in two parts rejects what the first part does, and what the
second part does after bytes that the first part recognizes. -/
theorem rejects_bind
    {m : Decode α} {f : α → Decode β} {recognized : List UInt8 → α → Prop}
    {relation : List UInt8 → DecodeError → Prop} {next : α → List UInt8 → DecodeError → Prop}
    (hrecognizes : Recognizes m recognized) (hm : Rejects m relation)
    (hf : ∀ a, Rejects (f a) (next a)) :
    Rejects (m >>= f) fun c error => relation c error ∨
      ∃ a c₁ c₂, c = c₁ ++ c₂ ∧ recognized c₁ a ∧ next a c₂ error := by
  intro data position error source herror
  simp only [bind, EStateM.bind]
  constructor
  · intro h
    cases hrun : m ⟨data, position, []⟩ with
    | error error' source' =>
        rw [hrun] at h
        cases h
        obtain ⟨c, rest, hrelation, hdata, hsource⟩ := (hm _ _ _ _ herror).mp hrun
        exact ⟨c, rest, .inl hrelation, hdata, hsource⟩
    | ok a source' =>
        rw [hrun] at h
        obtain ⟨c₁, rest₁, hrel₁, rfl, rfl⟩ := (hrecognizes data position a source').mp hrun
        obtain ⟨c₂, rest₂, hrel₂, rfl, rfl⟩ := (hf a _ _ error source herror).mp h
        refine ⟨c₁ ++ c₂, rest₂, .inr ⟨a, c₁, c₂, rfl, hrel₁, hrel₂⟩, ?_, ?_⟩
        · rw [List.append_assoc]
        · rw [List.length_append, Nat.add_assoc]
  · rintro ⟨c, rest, hrelation | ⟨a, c₁, c₂, rfl, hrel₁, hrel₂⟩, rfl, rfl⟩
    · rw [(hm _ _ _ _ herror).mpr ⟨c, rest, hrelation, rfl, rfl⟩]
    · have hfirst := (hrecognizes (c₁ ++ c₂ ++ rest) position a
        ⟨c₂ ++ rest, position + c₁.length, []⟩).mpr
          ⟨c₁, c₂ ++ rest, hrel₁, List.append_assoc _ _ _, rfl⟩
      rw [hfirst]
      refine (hf a _ _ error _ herror).mpr ⟨c₂, rest, hrel₂, rfl, ?_⟩
      rw [List.length_append, Nat.add_assoc]

theorem rejects_map
    {m : Decode α} {relation : List UInt8 → DecodeError → Prop} (h : Rejects m relation)
    (f : α → β) :
    Rejects (f <$> m) relation := by
  intro data position error source herror
  rw [← h data position error source herror]
  simp only [Functor.map, EStateM.map]
  cases m ⟨data, position, []⟩ <;> simp

theorem Quiet.map {m : Decode α} (h : Quiet m) (f : α → β) : Quiet (f <$> m) :=
  rejects_map h f

/-- A second part that has nothing to say adds nothing. -/
theorem Rejects.bind_quiet
    {m : Decode α} {f : α → Decode β} {recognized : List UInt8 → α → Prop}
    {relation : List UInt8 → DecodeError → Prop} (hm : Rejects m relation)
    (hrecognizes : Recognizes m recognized) (hf : ∀ a, Quiet (f a)) :
    Rejects (m >>= f) relation :=
  (rejects_bind hrecognizes hm hf).of_iff (by simp)

/-- After a first part that has nothing to say, the second one decides. -/
theorem rejects_bind_of_quiet
    {m : Decode α} {f : α → Decode β} {recognized : List UInt8 → α → Prop}
    {next : α → List UInt8 → DecodeError → Prop} (hm : Quiet m)
    (hrecognizes : Recognizes m recognized) (hf : ∀ a, Rejects (f a) (next a)) :
    Rejects (m >>= f) fun c error =>
      ∃ a c₁ c₂, c = c₁ ++ c₂ ∧ recognized c₁ a ∧ next a c₂ error :=
  (rejects_bind hrecognizes hm hf).of_iff (by simp)

end Combinators

/-! ## Bytes, numbers and texts -/

theorem quiet_takeBytes (n : Nat) : Quiet (takeBytes n) := by
  rw [quiet_iff]
  intro data position error source h
  simp only [takeBytes, Source.take, Source.takePast, Source.takePlain] at h
  split at h
  · cases h
  next heq =>
    split at heq
    · cases heq
    · cases heq
      cases h
      rfl

theorem quiet_takeByte : Quiet takeByte :=
  (quiet_takeBytes 1).map _

theorem quiet_takeInt32 : Quiet takeInt32 :=
  (quiet_takeBytes 4).map _

theorem quiet_takeInt64 : Quiet takeInt64 :=
  (quiet_takeBytes 8).map _

theorem quiet_takeBinary64 : Quiet takeBinary64 :=
  (quiet_takeBytes 8).map _

theorem quiet_lengthOfInteger (length : Int64) : Quiet (lengthOfInteger length) := by
  unfold lengthOfInteger
  split
  · exact quiet_throw rfl
  · exact quiet_pure _

theorem quiet_textOfBytes (bytes : List UInt8) : Quiet (textOfBytes bytes) := by
  unfold textOfBytes
  split
  · exact quiet_pure _
  · exact quiet_throw rfl

theorem quiet_place (bound : Nat) (stack : List Frame) (start : Value ⊕ Container) :
    Quiet (place bound stack start) := by
  unfold place
  split
  · exact quiet_pure _
  · split
    · exact quiet_throw rfl
    · exact quiet_pure _

/-- The bytes of an item up to a tag that is refused, and the error: the item does
not begin with a tag that is admitted, or it is a text whose length does not. -/
inductive Refused (wanted : Expectation) : List UInt8 → DecodeError → Prop where
  | tag {b : UInt8} (h : wanted.Refuses b) : Refused wanted [b] (wanted.complaint b)
  | length {b : UInt8} (h : Expectation.textLength.Refuses b) :
      Refused wanted [Tag.string.byte, b] (Expectation.textLength.complaint b)

theorem refused_cons_iff
    {wanted : Expectation} {b : UInt8} {c : List UInt8} {error : DecodeError} :
    Refused wanted (b :: c) error ↔
      (c = [] ∧ wanted.Refuses b ∧ error = wanted.complaint b) ∨
        (b = Tag.string.byte ∧ ∃ b', c = [b'] ∧ Expectation.textLength.Refuses b' ∧
          error = Expectation.textLength.complaint b') := by
  constructor
  · intro h
    cases h with
    | tag h => exact .inl ⟨rfl, h, rfl⟩
    | length h => exact .inr ⟨rfl, _, rfl, h, rfl⟩
  · rintro (⟨rfl, h, rfl⟩ | ⟨rfl, b', rfl, h, rfl⟩)
    · exact .tag h
    · exact .length h

theorem rejects_takeLengthInteger (b : UInt8) :
    Rejects (takeLengthInteger b) fun c error => c = [] ∧ Expectation.textLength.Refuses b ∧
      error = Expectation.textLength.complaint b := by
  unfold takeLengthInteger
  split
  next htag =>
    refine quiet_takeInt32.of_iff ?_
    simp [Expectation.Refuses, htag, Expectation.admits]
  next htag =>
    refine quiet_takeInt64.of_iff ?_
    simp [Expectation.Refuses, htag, Expectation.admits]
  next hint32 hint64 =>
    have hrefuses : Expectation.textLength.Refuses b := by
      intro t ht
      cases t with
      | int32 => exact absurd ht hint32
      | int64 => exact absurd ht hint64
      | _ => rfl
    refine (rejects_throw _).of_iff ?_
    simp [hrefuses, Expectation.complaint]

theorem rejects_takeLength :
    Rejects takeLength fun c error => ∃ b, c = [b] ∧ Expectation.textLength.Refuses b ∧
      error = Expectation.textLength.complaint b := by
  have hinteger := rejects_bind_of_quiet quiet_takeByte recognizes_takeByte
    rejects_takeLengthInteger
  refine (hinteger.bind_quiet
    (recognizes_bind recognizes_takeByte recognizes_takeLengthInteger)
    quiet_lengthOfInteger).of_iff ?_
  intro c error
  constructor
  · rintro ⟨b, _, _, rfl, rfl, rfl, h⟩
    exact ⟨b, rfl, h⟩
  · rintro ⟨b, rfl, h⟩
    exact ⟨b, [b], [], rfl, rfl, rfl, h⟩

theorem rejects_takeText (b : UInt8) :
    Rejects (takeText b) fun c error => Refused .text (b :: c) error := by
  unfold takeText
  split
  next htag =>
    have hquiet : Quiet (takeBytes 1 >>= textOfBytes) :=
      (quiet_takeBytes 1).bind_quiet (recognizes_takeBytes 1) quiet_textOfBytes
    refine hquiet.of_iff ?_
    obtain rfl := Tag.ofByte?_eq_some_iff.mp htag
    simp [refused_cons_iff, Expectation.Refuses, htag, Expectation.admits]
  next htag =>
    have hlength := rejects_takeLength.bind_quiet recognizes_takeLength quiet_takeBytes
    refine (hlength.bind_quiet (recognizes_bind recognizes_takeLength recognizes_takeBytes)
      quiet_textOfBytes).of_iff ?_
    obtain rfl := Tag.ofByte?_eq_some_iff.mp htag
    simp [refused_cons_iff, Expectation.Refuses, htag, Expectation.admits]
  next hchar hstring =>
    have hrefuses : Expectation.text.Refuses b := by
      intro t ht
      cases t with
      | char => exact absurd ht hchar
      | string => exact absurd ht hstring
      | _ => rfl
    have hb : b ≠ Tag.string.byte := by
      rintro rfl
      exact hstring (Tag.ofByte?_byte .string)
    refine (rejects_throw _).of_iff ?_
    simp [refused_cons_iff, hrefuses, hb, Expectation.complaint]

/-! ## Items -/

/-- A quiet computation reads the rest of an item whose tag is admitted and is not
that of a text. -/
theorem Quiet.refused
    {m : Decode (Value ⊕ Container)} (h : Quiet m) {b : UInt8} {t : Tag}
    (htag : Tag.ofByte? b = some t) (hadmits : Expectation.value.admits t = true)
    (htext : t ≠ .string) :
    Rejects m fun c error => Refused .value (b :: c) error := by
  refine h.of_iff ?_
  obtain rfl := Tag.ofByte?_eq_some_iff.mp htag
  simp [refused_cons_iff, Expectation.Refuses, htag, hadmits, htext]

theorem rejects_takeStart (b : UInt8) :
    Rejects (takeStart b) fun c error => Refused .value (b :: c) error := by
  unfold takeStart
  cases htag : Tag.ofByte? b with
  | none =>
      have hb : b ≠ Tag.string.byte := by
        rintro rfl
        cases htag
      refine (rejects_throw _).of_iff ?_
      simp [refused_cons_iff, Expectation.Refuses, Expectation.complaint, htag, hb]
  | some t =>
      cases t with
      | null | true | false | arrayStart | objectStart =>
          exact (quiet_pure _).refused htag rfl (by decide)
      | int32 => exact (quiet_takeInt32.map _).refused htag rfl (by decide)
      | int64 => exact (quiet_takeInt64.map _).refused htag rfl (by decide)
      | float64 => exact (quiet_takeBinary64.map _).refused htag rfl (by decide)
      | char | string =>
          refine (rejects_map (rejects_takeText b) _).of_iff ?_
          simp [refused_cons_iff, Expectation.Refuses, htag, Expectation.admits]
      | arrayEnd | objectEnd =>
          refine (rejects_throw _).of_iff ?_
          obtain rfl := Tag.ofByte?_eq_some_iff.mp htag
          simp [refused_cons_iff, Expectation.Refuses, Expectation.complaint, htag,
            Expectation.admits]

theorem rejects_stepValue (bound : Nat) (stack : List Frame) (b : UInt8) :
    Rejects (stepValue bound stack b) fun c error => Refused .value (b :: c) error :=
  (rejects_takeStart b).bind_quiet (recognizes_takeStart b) (quiet_place bound stack)

/-- What a tag is expected to begin where the given containers are open. -/
def expected : List Frame → Expectation
  | .object _ none :: _ => .text
  | _ => .value

/-- The tag that ends the innermost container, where it may end. -/
def endTag? : List Frame → Option Tag
  | .array _ :: _ => some .arrayEnd
  | .object _ none :: _ => some .objectEnd
  | _ => none

/-- The end of a container is no item that is refused. -/
theorem quiet_end
    {m : Decode Progress} (h : Quiet m) (wanted : Expectation) (t : Tag) :
    Rejects m fun c error => Refused wanted (t.byte :: c) error ∧ ∀ u ∈ some t, t.byte ≠ u.byte :=
  h.of_iff (by simp)

/-- A byte that does not end a container is refused as if it could not. -/
theorem Rejects.of_ne_end
    {m : Decode Progress} {wanted : Expectation} {b : UInt8}
    (h : Rejects m fun c error => Refused wanted (b :: c) error) {ends : Option Tag}
    (hb : ∀ t ∈ ends, b ≠ t.byte) :
    Rejects m fun c error => Refused wanted (b :: c) error ∧ ∀ t ∈ ends, b ≠ t.byte := by
  refine h.of_iff ?_
  intro c error
  rw [and_iff_left hb]

theorem rejects_stepByte (bound : Nat) (stack : List Frame) (b : UInt8) :
    Rejects (stepByte bound stack b) fun c error =>
      Refused (expected stack) (b :: c) error ∧ ∀ t ∈ endTag? stack, b ≠ t.byte := by
  have hvalue := rejects_stepValue bound stack b
  rcases stack with _ | ⟨items | ⟨members, _ | name⟩, outer⟩
  · exact hvalue.of_ne_end (by simp [endTag?])
  · rw [stepByte]
    by_cases hb : b = Tag.arrayEnd.byte
    · rw [if_pos hb, hb]
      exact quiet_end (quiet_pure _) .value .arrayEnd
    · rw [if_neg hb]
      exact hvalue.of_ne_end (by simpa [endTag?] using hb)
  · rw [stepByte]
    by_cases hb : b = Tag.objectEnd.byte
    · rw [if_pos hb, hb]
      exact quiet_end (quiet_pure _) .text .objectEnd
    · rw [if_neg hb]
      exact (rejects_map (rejects_takeText b) _).of_ne_end (by simpa [endTag?] using hb)
  · exact hvalue.of_ne_end (by simp [endTag?])

theorem rejects_step (bound : Nat) (stack : List Frame) :
    Rejects (step bound stack) fun c error => Refused (expected stack) c error ∧
      ∀ t ∈ endTag? stack, c.head? ≠ some t.byte := by
  refine (rejects_bind_of_quiet quiet_takeByte recognizes_takeByte
    (rejects_stepByte bound stack)).of_iff ?_
  intro c error
  constructor
  · rintro ⟨b, _, c, rfl, rfl, h, hend⟩
    exact ⟨h, by simpa using hend⟩
  · rintro ⟨h, hend⟩
    obtain ⟨b, c, rfl⟩ : ∃ b d, c = b :: d := by
      cases h <;> exact ⟨_, _, rfl⟩
    exact ⟨b, [b], c, rfl, rfl, h, by simpa using hend⟩

/-! ## Places -/

/-- A byte that is refused in a place where a tag is read, with the bytes before
the place and what is expected there: an item that the open containers leave room
for, or the length of a text that is such an item. -/
inductive RefusedAt (bound : Nat) : List UInt8 → Expectation → UInt8 → Prop where
  | item {c : List UInt8} {stack : List Frame} {b : UInt8}
      (hwalk : Leads bound (.pending []) c (.pending stack))
      (hrefuses : (expected stack).Refuses b) (hend : ∀ t ∈ endTag? stack, b ≠ t.byte) :
      RefusedAt bound c (expected stack) b
  | length {c : List UInt8} {stack : List Frame} {b : UInt8}
      (hwalk : Leads bound (.pending []) c (.pending stack))
      (hrefuses : Expectation.textLength.Refuses b) :
      RefusedAt bound (c ++ [Tag.string.byte]) .textLength b

theorem endTag?_ne_string {stack : List Frame} : ∀ t ∈ endTag? stack, t ≠ .string := by
  rcases stack with _ | ⟨items | ⟨members, _ | name⟩, outer⟩ <;> simp [endTag?]

section

variable {bound position : Nat} {b : UInt8} {error : DecodeError} {source : Source}

/-- A run ends with an error about a tag where a tag is refused. -/
theorem exists_refusedAt_of_run
    {data : List UInt8} (hrun : run bound [] ⟨data, position, []⟩ = (.error error, source))
    (herror : error.tagByte? = some b) :
    ∃ c rest wanted, RefusedAt bound c wanted b ∧ error = wanted.complaint b ∧
      data = c ++ b :: rest ∧ source = ⟨rest, position + (c.length + 1), []⟩ := by
  obtain ⟨c, rest, last, hwalk, rfl, hlast⟩ := exists_leads_to_last_step bound [] data position
  have hrest : run bound last ⟨rest, position + c.length, []⟩ = (.error error, source) :=
    (resume_of_leads hwalk rest position).symm.trans hrun
  cases hstep : step bound last ⟨rest, position + c.length, []⟩ with
  | ok next source' =>
      cases next with
      | pending stack' => exact absurd hstep (hlast stack' source')
      | finished v =>
          rw [run_of_step_ok hstep] at hrest
          cases hrest
  | error error' source' =>
      rw [run_of_step_error hstep] at hrest
      cases hrest
      have htag : error.tagByte? ≠ none := by
        simp [herror]
      obtain ⟨d, rest, ⟨hrefused, hend⟩, rfl, rfl⟩ :=
        (rejects_step bound last _ _ error source htag).mp hstep
      cases hrefused with
      | tag hrefuses =>
          obtain rfl := Option.some.inj ((Expectation.tagByte?_complaint _ _).symm.trans herror)
          refine ⟨c, rest, expected last, .item hwalk hrefuses ?_, rfl, rfl, ?_⟩
          · simpa using hend
          · rw [Nat.add_assoc]
            rfl
      | length hrefuses =>
          obtain rfl := Option.some.inj ((Expectation.tagByte?_complaint _ _).symm.trans herror)
          refine ⟨c ++ [Tag.string.byte], rest, .textLength, .length hwalk hrefuses, rfl, ?_, ?_⟩
          · rw [List.append_assoc]
            rfl
          · rw [List.length_append, Nat.add_assoc, Nat.add_assoc]
            rfl

/-- Where a tag is refused, a run ends with the error about it. -/
theorem run_of_refusedAt
    {c : List UInt8} {wanted : Expectation} (h : RefusedAt bound c wanted b) (rest : List UInt8)
    (position : Nat) :
    run bound [] ⟨c ++ b :: rest, position, []⟩ =
      (.error (wanted.complaint b), ⟨rest, position + (c.length + 1), []⟩) := by
  have htag : (wanted.complaint b).tagByte? ≠ none := by
    simp
  cases h with
  | @item _ stack _ hwalk hrefuses hend =>
      have hstep : step bound stack ⟨b :: rest, position + c.length, []⟩ =
          .error ((expected stack).complaint b) ⟨rest, position + (c.length + 1), []⟩ :=
        (rejects_step bound stack _ _ _ _ htag).mpr
          ⟨[b], rest, ⟨.tag hrefuses, by simpa using hend⟩, rfl, rfl⟩
      exact (resume_of_leads hwalk (b :: rest) position).trans (run_of_step_error hstep)
  | @length c stack _ hwalk hrefuses =>
      have hstep : step bound stack ⟨Tag.string.byte :: b :: rest, position + c.length, []⟩ =
          .error (Expectation.textLength.complaint b)
            ⟨rest, position + ((c ++ [Tag.string.byte]).length + 1), []⟩ := by
        refine (rejects_step bound stack _ _ _ _ htag).mpr
          ⟨[Tag.string.byte, b], rest, ⟨.length hrefuses, ?_⟩, rfl, ?_⟩
        · intro t ht
          simpa using (endTag?_ne_string t ht).symm
        · rw [List.length_append, Nat.add_assoc, Nat.add_assoc]
          rfl
      rw [List.append_assoc]
      exact (resume_of_leads hwalk _ position).trans (run_of_step_error hstep)

end

end Decoder

/-! ## Decoding -/

namespace Source

/-- Decoding ends with an error about a tag exactly where a tag is refused, and has
read just the bytes up to this tag. -/
theorem decode_tagError_iff
    {data : List UInt8} {position bound : Nat} {b : UInt8} {error : DecodeError}
    {source : Source} :
    ((⟨data, position, []⟩ : Source).decode bound = (.error error, source) ∧
        error.tagByte? = some b) ↔
      ∃ c rest wanted, Decoder.RefusedAt bound c wanted b ∧ error = wanted.complaint b ∧
        data = c ++ b :: rest ∧ source = ⟨rest, position + (c.length + 1), []⟩ := by
  constructor
  · rintro ⟨hdecode, herror⟩
    exact Decoder.exists_refusedAt_of_run hdecode herror
  · rintro ⟨c, rest, wanted, hrefused, rfl, rfl, rfl⟩
    exact ⟨Decoder.run_of_refusedAt hrefused rest position, wanted.tagByte?_complaint b⟩

/-- No value goes on with a byte that is refused. -/
theorem not_denotes_of_refusedAt
    {bound : Nat} {c : List UInt8} {wanted : Expectation} {b : UInt8}
    (h : Decoder.RefusedAt bound c wanted b) (d : List UInt8) (v : Value) :
    ¬Grammar.Denotes (c ++ b :: d) v := by
  intro hdenotes
  have herror : (⟨c ++ b :: d, 0, []⟩ : Source).decode bound =
      (.error (wanted.complaint b), ⟨d, 0 + (c.length + 1), []⟩) :=
    Decoder.run_of_refusedAt h d 0
  -- With a bound that the value keeps within, it would be read nevertheless.
  have hvalue : (⟨c ++ b :: d, 0, []⟩ : Source).decode (max bound v.depth) =
      (.ok v, ⟨[], 0 + (c ++ b :: d).length, []⟩) :=
    (decode_eq_ok_iff _ _ _ _ _).mpr
      ⟨c ++ b :: d, [], (List.append_nil _).symm, hdenotes, Nat.le_max_right _ _, rfl⟩
  rcases decode_tooDeep_or_eq (Nat.le_max_left bound v.depth) ⟨c ++ b :: d, 0, []⟩ with
    hdeep | hsame
  · rw [herror] at hdeep
    have hbyte := wanted.tagByte?_complaint b
    rw [Except.error.inj hdeep] at hbyte
    cases hbyte
  · rw [herror, hvalue] at hsame
    cases hsame

/-- An error about a tag names the last byte read, which stands where no value can
go on with it.  A byte that is called an invalid tag is none.  The error names the
byte rightly if a value was expected, or else if the byte is a tag; a byte that is
no tag but stands in the place of a name or a length is called an unexpected tag. -/
theorem decode_names_tag_rightly_iff
    {data : List UInt8} {position bound : Nat} {b : UInt8} {error : DecodeError}
    {source : Source}
    (hdecode : (⟨data, position, []⟩ : Source).decode bound = (.error error, source))
    (hbyte : error.tagByte? = some b) :
    ∃ c rest wanted, data = c ++ b :: rest ∧ source = ⟨rest, position + (c.length + 1), []⟩ ∧
      Decoder.RefusedAt bound c wanted b ∧ (∀ d v, ¬Grammar.Denotes (c ++ b :: d) v) ∧
      ((error = .invalidTag b ∧ ∀ t : Tag, b ≠ t.byte) ∨ error = .unexpectedTag wanted b) ∧
      (error.NamesTagRightly ↔ wanted = .value ∨ ∃ t : Tag, b = t.byte) := by
  obtain ⟨c, rest, wanted, hrefused, rfl, hdata, hsource⟩ :=
    decode_tagError_iff.mp ⟨hdecode, hbyte⟩
  exact ⟨c, rest, wanted, hdata, hsource, hrefused, not_denotes_of_refusedAt hrefused,
    wanted.complaint_eq_or b, wanted.namesTagRightly_complaint_iff b⟩

/-- A bracket that ends an array is a tag, but not where a name is expected. -/
theorem decode_names_tag_rightly_bracket :
    (⟨[0x7B, 0x5D, 0x5A], 0, []⟩ : Source).decode 1 =
        (.error (.unexpectedTag .text 0x5D), ⟨[0x5A], 2, []⟩) ∧
      ∀ d v, ¬Grammar.Denotes (0x7B :: 0x5D :: d) v := by
  have hdecode : (⟨[0x7B, 0x5D, 0x5A], 0, []⟩ : Source).decode 1 =
      (.error (.unexpectedTag .text 0x5D), ⟨[0x5A], 2, []⟩) := by
    cbv
  obtain ⟨c, rest, -, hdata, hsource, -, hnone, -, -⟩ := decode_names_tag_rightly_iff hdecode rfl
  obtain rfl : [0x5A] = rest := congrArg Source.unread hsource
  obtain rfl : [0x7B] = c := List.append_cancel_right hdata
  exact ⟨hdecode, hnone⟩

/-- The letter `x` is no tag, and is called an invalid tag where a value is
expected, but an unexpected one in the place of a name or a length. -/
theorem decode_names_tag_wrongly :
    (∀ t : Tag, 0x78 ≠ t.byte) ∧
      ((⟨[0x78], 0, []⟩ : Source).decode 1).1 = .error (.invalidTag 0x78) ∧
      ((⟨[0x7B, 0x78], 0, []⟩ : Source).decode 1).1 = .error (.unexpectedTag .text 0x78) ∧
      ((⟨[0x53, 0x78], 0, []⟩ : Source).decode 1).1 = .error (.unexpectedTag .textLength 0x78) := by
  refine ⟨Tag.ofByte?_eq_none_iff.mp rfl, ?_, ?_, ?_⟩
  · cbv
  · cbv
  · cbv

end Source

end EcmaTree
