import EcmaTree.Proofs.Parsing

/-!
# The bound on open containers

The bound is looked at in one place only, when a container starts.  Two bounds
differ there only if the smaller one is reached, and then decoding with the
smaller one ends at once.  So decoding with different bounds goes on in step
until then, and a bound that is not exceeded might as well have been larger.

Whether a bound is exceeded depends on the value alone.  If a value can be read
with some bound, it can be read with exactly those that are not less than its
depth, and the others are reported as exceeded.
-/

namespace EcmaTree

namespace Decoder

/-! ## Steps with two bounds -/

/-- Two computations that do the same wherever the first does not end with the
given error. -/
def AgreesUnless {α : Type} (error : DecodeError) (m m' : Decode α) : Prop :=
  ∀ source, (∃ source', m source = .error error source') ∨ m source = m' source

theorem AgreesUnless.refl
    {α : Type} {error : DecodeError} (m : Decode α) :
    AgreesUnless error m m :=
  fun _ => .inr rfl

theorem AgreesUnless.bind
    {α β : Type} {error : DecodeError} (m : Decode α) {f f' : α → Decode β}
    (h : ∀ a, AgreesUnless error (f a) (f' a)) :
    AgreesUnless error (m >>= f) (m >>= f') := by
  intro source
  simp only [Bind.bind, EStateM.bind]
  cases m source with
  | ok a source' => exact h a source'
  | error e source' => exact .inr rfl

section

variable {bound larger : Nat} (hle : bound ≤ larger) (stack : List Frame)

include hle

theorem place_agrees (item : Value ⊕ Container) :
    AgreesUnless (.tooDeep bound) (place bound stack item) (place larger stack item) := by
  rcases item with v | c
  · exact .refl _
  · by_cases hfull : bound ≤ stack.length
    · have hdeep : place bound stack (.inr c) = throw (.tooDeep bound) := if_pos hfull
      intro source
      rw [hdeep]
      exact .inl ⟨source, rfl⟩
    · have hroom : ¬larger ≤ stack.length := fun h => hfull (hle.trans h)
      have hsame : place bound stack (.inr c) = place larger stack (.inr c) :=
        (if_neg hfull).trans (if_neg hroom).symm
      rw [hsame]
      exact .refl _

theorem stepValue_agrees (b : UInt8) :
    AgreesUnless (.tooDeep bound) (stepValue bound stack b) (stepValue larger stack b) :=
  .bind _ (place_agrees hle stack)

theorem stepByte_agrees (b : UInt8) :
    AgreesUnless (.tooDeep bound) (stepByte bound stack b) (stepByte larger stack b) := by
  unfold stepByte
  split
  · split
    · exact .refl _
    · exact stepValue_agrees hle _ b
  · exact .refl _
  · exact stepValue_agrees hle stack b

theorem step_agrees :
    AgreesUnless (.tooDeep bound) (step bound stack) (step larger stack) :=
  .bind _ (stepByte_agrees hle stack)

end

/-- A run with a smaller bound is the same as with a larger one, unless it ends
because the smaller bound is exceeded. -/
theorem run_tooDeep_or_eq
    {bound larger : Nat} (hle : bound ≤ larger) (stack : List Frame) (source : Source) :
    (run bound stack source).1 = .error (.tooDeep bound) ∨
      run larger stack source = run bound stack source := by
  fun_induction run bound stack source with
  | case1 stack source v source' hstep =>
      rcases step_agrees hle stack source with ⟨_, hdeep⟩ | hsame
      · cases hstep.symm.trans hdeep
      · exact .inr (run_of_step_ok (hsame.symm.trans hstep))
  | case2 stack source stack' source' hstep ih =>
      rcases step_agrees hle stack source with ⟨_, hdeep⟩ | hsame
      · cases hstep.symm.trans hdeep
      · apply ih.imp_right
        intro hrest
        exact (run_of_step_ok (hsame.symm.trans hstep)).trans hrest
  | case3 stack source error source' hstep =>
      rcases step_agrees hle stack source with ⟨_, hdeep⟩ | hsame
      · cases hstep.symm.trans hdeep
        exact .inl rfl
      · exact .inr (run_of_step_error (hsame.symm.trans hstep))

end Decoder

namespace Source

/-! ## Values -/

theorem decode_tooDeep_or_eq
    {bound larger : Nat} (hle : bound ≤ larger) (source : Source) :
    (source.decode bound).1 = .error (.tooDeep bound) ∨
      source.decode larger = source.decode bound :=
  Decoder.run_tooDeep_or_eq hle [] source

section

variable {data : List UInt8} {position bound other : Nat} {v : Value} {source : Source}

theorem depth_le_of_decode
    (h : (⟨data, position, []⟩ : Source).decode bound = (.ok v, source)) :
    v.depth ≤ bound := by
  obtain ⟨_, _, _, _, hdepth, _⟩ := (decode_eq_ok_iff data position bound v source).mp h
  exact hdepth

/-- A value that can be read with some bound can be read with any that is not
less than its depth. -/
theorem decode_of_depth_le
    (h : (⟨data, position, []⟩ : Source).decode other = (.ok v, source))
    (hdepth : v.depth ≤ bound) :
    (⟨data, position, []⟩ : Source).decode bound = (.ok v, source) := by
  obtain ⟨c, rest, hdata, hdenotes, _, hsource⟩ :=
    (decode_eq_ok_iff data position other v source).mp h
  exact (decode_eq_ok_iff data position bound v source).mpr
    ⟨c, rest, hdata, hdenotes, hdepth, hsource⟩

/-- With a bound that is less than the depth of the value, it is exceeded. -/
theorem decode_of_lt_depth
    (h : (⟨data, position, []⟩ : Source).decode other = (.ok v, source))
    (hdepth : bound < v.depth) :
    ((⟨data, position, []⟩ : Source).decode bound).1 = .error (.tooDeep bound) := by
  have hle : bound ≤ other := Nat.le_of_lt (hdepth.trans_le (depth_le_of_decode h))
  apply (decode_tooDeep_or_eq hle _).resolve_right
  intro hsame
  exact Nat.not_le.mpr hdepth (depth_le_of_decode (hsame.symm.trans h))

end

/-- The bound is exact, and makes no difference otherwise.  Unless it is exceeded,
any larger bound gives the same outcome and leaves the same bytes.  If a value
can be read with some bound, then the bounds with which it can be read are those
that are not less than its depth, and any other bound is exceeded. -/
theorem decode_bound_exact (bound : Nat) :
    (∀ (source : Source) (larger : Nat), bound ≤ larger →
      (source.decode bound).1 ≠ .error (.tooDeep bound) →
        source.decode larger = source.decode bound) ∧
    ∀ (data : List UInt8) (position other : Nat) (v : Value) (source : Source),
      (⟨data, position, []⟩ : Source).decode other = (.ok v, source) →
        ((∃ w source', (⟨data, position, []⟩ : Source).decode bound = (.ok w, source')) ↔
          v.depth ≤ bound) ∧
        (v.depth ≤ bound → (⟨data, position, []⟩ : Source).decode bound = (.ok v, source)) ∧
        (¬v.depth ≤ bound →
          ((⟨data, position, []⟩ : Source).decode bound).1 = .error (.tooDeep bound)) := by
  constructor
  · intro source larger hle hbound
    exact (decode_tooDeep_or_eq hle source).resolve_left hbound
  · intro data position other v source h
    have hdeep : ¬v.depth ≤ bound →
        ((⟨data, position, []⟩ : Source).decode bound).1 = .error (.tooDeep bound) := by
      intro hdepth
      exact decode_of_lt_depth h (Nat.lt_of_not_le hdepth)
    refine ⟨⟨?_, ?_⟩, decode_of_depth_le h, hdeep⟩
    · rintro ⟨w, source', hread⟩
      by_contra hdepth
      have herror := hdeep hdepth
      rw [hread] at herror
      cases herror
    · intro hdepth
      exact ⟨v, source, decode_of_depth_le h hdepth⟩

/-- An array in an object in an array, with a further item behind: three
containers are enough and two are not. -/
theorem decode_bound_exact_mixed :
    let source : Source := ⟨[0x5B, 0x7B, 0x43, 0x61, 0x5B, 0x5D, 0x7D, 0x54, 0x5D], 0, []⟩
    let v : Value := .array [.object [("a", .array [])], .bool true]
    source.decode 3 = (.ok v, ⟨[], 9, []⟩) ∧ source.decode 5 = source.decode 3 ∧
      (source.decode 2).1 = .error (.tooDeep 2) := by
  intro source v
  have hread : (⟨[0x5B, 0x7B, 0x43, 0x61, 0x5B, 0x5D, 0x7D, 0x54, 0x5D], 0, []⟩ : Source).decode 3 =
      (.ok (.array [.object [("a", .array [])], .bool true]), ⟨[], 9, []⟩) := by
    cbv
  have hlarger := (decode_bound_exact 3).1 source 5 (by decide) (by simp [source, hread])
  obtain ⟨-, -, hdeep⟩ := (decode_bound_exact 2).2 _ _ _ _ _ hread
  exact ⟨hread, hlarger, hdeep (by decide)⟩

end Source

end EcmaTree
