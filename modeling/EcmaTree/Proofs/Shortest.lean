import EcmaTree.Proofs.RoundTrip
import Mathlib.Data.List.Basic

/-!
# Encodings are the shortest

Bytes that denote a value need not be those that it is encoded as: an integer
may be wider than necessary, the length of a text of one byte may be written
out, and a double may be infinite or no number.  Every such form is longer than
the one that is used in its place, and the difference adds up over the parts of
a value.  So what is encoded after decoding is either the same bytes or fewer.
-/

namespace EcmaTree

/-- Bytes that are the same as others or fewer. -/
def Condenses (e c : List UInt8) : Prop :=
  e = c ∨ e.length < c.length

namespace Condenses

variable {e c e' c' : List UInt8}

theorem refl (c : List UInt8) : Condenses c c :=
  .inl rfl

/-- Parts are condensed one by one. -/
theorem append (h : Condenses e c) (h' : Condenses e' c') : Condenses (e ++ e') (c ++ c') := by
  simp only [Condenses, List.length_append] at *
  rcases h with rfl | hlt <;> rcases h' with rfl | hlt'
  · exact .inl rfl
  all_goals exact .inr (by omega)

theorem cons (h : Condenses e c) (b : UInt8) : Condenses (b :: e) (b :: c) :=
  (refl [b]).append h

theorem length_le (h : Condenses e c) : e.length ≤ c.length := by
  rcases h with rfl | hlt
  · exact Nat.le_refl _
  · exact Nat.le_of_lt hlt

theorem length_eq_iff (h : Condenses e c) : e.length = c.length ↔ e = c := by
  constructor
  · intro hlen
    exact h.resolve_right (Nat.not_lt_of_le (Nat.le_of_eq hlen.symm))
  · intro heq
    rw [heq]

end Condenses

/-! ## Numbers and texts -/

namespace Encoding

theorem fitsInt32_toInt64 (j : Int32) : fitsInt32 j.toInt64 = true := by
  have hmin := j.le_toInt
  have hmax := j.toInt_lt
  rw [fitsInt32, Int32.toInt_toInt64, Bool.and_eq_true, decide_eq_true_iff, decide_eq_true_iff,
    Int32.toInt_minValue, Int32.toInt_maxValue]
  omega

/-- An integer is written in four bytes wherever they suffice. -/
theorem condenses_integer
    {c : List UInt8} {i : Int64} (h : Grammar.Integer c i.toInt) :
    Condenses (integerBytes i) c := by
  rcases Grammar.integer_iff.mp h with ⟨j, rfl, hj⟩ | ⟨j, rfl, hj⟩
  · have hi : i = j.toInt64 := by
      apply Int64.toInt_inj.mp
      rw [hj, Int32.toInt_toInt64]
    rw [integerBytes, hi, if_pos (fitsInt32_toInt64 j), Int32.toInt32_toInt64]
    exact .refl _
  · have hi : i = j := Int64.toInt_inj.mp hj
    subst hi
    rw [integerBytes]
    by_cases hfits : fitsInt32 i = true
    · rw [if_pos hfits]
      exact .inr (by simp)
    · rw [if_neg hfits]
      exact .refl _

/-- A length that is written in any way is one that can be written. -/
theorem textLength_toInt_of_integer
    {header data : List UInt8} (h : Grammar.Integer header data.length) :
    (textLength data).toInt = data.length := by
  have hword : ∃ i : Int64, i.toInt = data.length := by
    rcases Grammar.integer_iff.mp h with ⟨j, -, hj⟩ | ⟨j, -, hj⟩
    · exact ⟨j.toInt64, by rw [hj, Int32.toInt_toInt64]⟩
    · exact ⟨j, hj.symm⟩
  obtain ⟨i, hi⟩ := hword
  have hlength : textLength data = i := by
    rw [textLength, ← Int64.ofInt_toInt i, hi]
    rfl
  rw [hlength, hi]

/-- A text of one byte is written without its length, and any other length is
written as an integer is. -/
theorem condenses_text
    {c : List UInt8} {s : String} (h : Grammar.Text c s) :
    Condenses (textBytes (Utf8.encode s)) c := by
  cases h with
  | char b hb =>
      rw [Utf8.encode_singleton_ofUInt8 hb]
      exact .refl _
  | @string header s hlength =>
      rw [← Utf8.encode_eq_flatMap] at hlength ⊢
      by_cases hone : ∃ b, Utf8.encode s = [b]
      · obtain ⟨b, hb⟩ := hone
        have hheader : header ≠ [] := by
          rintro rfl
          cases hlength
        have hpos := List.length_pos_iff.mpr hheader
        rw [hb]
        refine .inr ?_
        simp only [textBytes, List.length_cons, List.length_nil, List.length_append]
        omega
      · have hinteger : Grammar.Integer header (textLength (Utf8.encode s)).toInt := by
          rw [textLength_toInt_of_integer hlength]
          exact hlength
        rw [textBytes_of_ne_singleton (not_exists.mp hone)]
        exact ((condenses_integer hinteger).append (.refl _)).cons _

end Encoding

/-! ## Values -/

namespace Value

open Encoding

theorem condenses_scalar
    {c : List UInt8} {v : Value} (h : Grammar.Scalar c v) :
    Condenses v.encoding c := by
  cases h with
  | null | true | false => exact .refl _
  | int hinteger =>
      rw [encoding_int]
      exact condenses_integer hinteger
  | @float c x hlen hbits =>
      obtain rfl := Grammar.eq_packBinary64_iff.mpr ⟨hlen, hbits⟩
      rw [encoding_float]
      by_cases hfinite : x.isFinite = true
      · rw [if_pos hfinite]
        exact .refl _
      · rw [if_neg hfinite]
        exact .inr (by simp)
  | text htext =>
      rw [encoding_text]
      exact condenses_text htext

theorem condenses_items
    {items : List Value}
    (ih : ∀ v ∈ items, ∀ {c : List UInt8}, Grammar.Denotes c v → Condenses v.encoding c)
    {c : List UInt8} (h : Grammar.Items c items) :
    Condenses (items.flatMap encoding) c := by
  induction items generalizing c with
  | nil =>
      cases h
      exact .refl _
  | cons v items ihs =>
      obtain ⟨ihv, ihrest⟩ := List.forall_mem_cons.mp ih
      cases h with
      | cons hv hitems =>
          rw [List.flatMap_cons]
          exact (ihv hv).append (ihs ihrest hitems)

theorem condenses_members
    {members : List (String × Value)}
    (ih : ∀ m ∈ members, ∀ {c : List UInt8}, Grammar.Denotes c m.2 → Condenses m.2.encoding c)
    {c : List UInt8} (h : Grammar.Members c members) :
    Condenses (members.flatMap fun m => textBytes (Utf8.encode m.1) ++ m.2.encoding) c := by
  induction members generalizing c with
  | nil =>
      cases h
      exact .refl _
  | cons m members ihs =>
      obtain ⟨ihv, ihrest⟩ := List.forall_mem_cons.mp ih
      cases h with
      | cons hname hv hmembers =>
          rw [List.flatMap_cons]
          exact ((condenses_text hname).append (ihv hv)).append (ihs ihrest hmembers)

/-- A value is encoded as any bytes that denote it, or as fewer. -/
theorem condenses_encoding
    {c : List UInt8} {v : Value} (h : Grammar.Denotes c v) :
    Condenses v.encoding c := by
  induction v generalizing c with
  | null | bool | int | float | text =>
      cases h with
      | scalar hscalar => exact condenses_scalar hscalar
  | array items ih =>
      cases h with
      | scalar hscalar => exact condenses_scalar hscalar
      | array hitems =>
          rw [encoding_array]
          exact ((condenses_items ih hitems).append (.refl _)).cons _
  | object members ih =>
      cases h with
      | scalar hscalar => exact condenses_scalar hscalar
      | object hmembers =>
          rw [encoding_object]
          exact ((condenses_members ih hmembers).append (.refl _)).cons _

/-- Null takes the place of a number that is encoded as null. -/
theorem encoding_normalize (v : Value) : v.normalize.encoding = v.encoding := by
  induction v with
  | null | bool | int | text => rfl
  | float x =>
      rw [normalize]
      split
      · rfl
      next hfinite =>
        rw [encoding_float, if_neg hfinite]
        rfl
  | array items ih =>
      rw [normalize, normalizeItems_eq_map, encoding_array, encoding_array, List.flatMap_map,
        List.flatMap_congr ih]
  | object members ih =>
      have hmembers :
          members.flatMap (fun m => textBytes (Utf8.encode m.1) ++ m.2.normalize.encoding) =
            members.flatMap fun m => textBytes (Utf8.encode m.1) ++ m.2.encoding := by
        apply List.flatMap_congr
        intro m hm
        rw [ih m hm]
      rw [normalize, normalizeMembers_eq_map, encoding_object, encoding_object, List.flatMap_map,
        hmembers]

end Value

/-! ## Decoding and encoding again -/

namespace Source

/-- The encoding of a value is read as a whole by every decoding that succeeds. -/
theorem eq_normalize_of_decode_encoding
    {v u : Value} {bound position : Nat} {source : Source}
    (htexts : ∀ s ∈ v.texts, s.utf8ByteSize < 2 ^ 63)
    (h : (⟨v.encoding, position, []⟩ : Source).decode bound = (.ok u, source)) :
    u = v.normalize ∧ source.unread = [] := by
  obtain ⟨c, rest, hdata, hdenotes, hdepth, hsource⟩ := (decode_eq_ok_iff _ _ _ _ _).mp h
  -- With room for both values, the bytes are decoded in one way.
  have hroom : v.depth ≤ max bound v.depth := Nat.le_max_right _ _
  have hwide : (⟨v.encoding, position, []⟩ : Source).decode (max bound v.depth) = (.ok u, source) :=
    (decode_eq_ok_iff _ _ _ _ _).mpr
      ⟨c, rest, hdata, hdenotes, Nat.le_trans hdepth (Nat.le_max_left _ _), hsource⟩
  have hwhole := decode_encoding htexts hroom [] position
  rw [List.append_nil, hwide] at hwhole
  cases hwhole
  exact ⟨rfl, rfl⟩

/-- A value that has been decoded is encoded as the bytes that were read, or as
fewer; and what a value is encoded as is decoded as the value, in which null
stands for numbers that are not finite, and encoded again without a change. -/
theorem encode_decoded_shortest (bound : Nat) :
    (∀ (data : List UInt8) (position : Nat) (v : Value) (source : Source),
      (⟨data, position, []⟩ : Source).decode bound = (.ok v, source) →
        ∃ c bytes, data = c ++ source.unread ∧ v.encode = .ok bytes ∧
          bytes.length ≤ c.length ∧ (bytes.length = c.length ↔ bytes = c)) ∧
    ∀ (v : Value) (bytes : List UInt8),
      v.encode = .ok bytes → (∀ s ∈ v.texts, s.utf8ByteSize < 2 ^ 63) →
        (v.depth ≤ bound → ∃ u source,
          (⟨bytes, 0, []⟩ : Source).decode bound = (.ok u, source)) ∧
        ∀ u source, (⟨bytes, 0, []⟩ : Source).decode bound = (.ok u, source) →
          source.unread = [] ∧ u = v.normalize ∧ u.encode = .ok bytes := by
  constructor
  · intro data position v source h
    obtain ⟨c, rest, hdata, hdenotes, -, rfl⟩ := (decode_eq_ok_iff _ _ _ _ _).mp h
    have hshorter := Value.condenses_encoding hdenotes
    exact ⟨c, v.encoding, hdata, v.encode_eq, hshorter.length_le, hshorter.length_eq_iff⟩
  · intro v bytes hencode htexts
    rw [v.encode_eq] at hencode
    cases hencode
    constructor
    · intro hdepth
      have hwhole := decode_encoding htexts hdepth [] 0
      rw [List.append_nil] at hwhole
      exact ⟨_, _, hwhole⟩
    · intro u source h
      obtain ⟨rfl, hunread⟩ := eq_normalize_of_decode_encoding htexts h
      refine ⟨hunread, rfl, ?_⟩
      rw [Value.encode_eq, Value.encoding_normalize]

/-- Here a name has its length written out, an integer takes eight bytes, and a
double is no number; the encoding of the value, which is shorter, stays as it is. -/
theorem encode_decoded_shortest_wide :
    let v : Value := .object [("a", .array [.int 7, .float ⟨0x7FF8000000000000⟩])]
    let data : List UInt8 := [0x7B, 0x53, 0x6C, 1, 0, 0, 0, 0x61, 0x5B, 0x4C, 7, 0, 0, 0, 0, 0, 0,
      0, 0x44, 0, 0, 0, 0, 0, 0, 0xF8, 0x7F, 0x5D, 0x7D, 0]
    (⟨data, 0, []⟩ : Source).decode 2 = (.ok v, ⟨[0], 29, []⟩) ∧
    (∃ c bytes, data = c ++ [0] ∧ v.encode = .ok bytes ∧
      bytes.length ≤ c.length ∧ (bytes.length = c.length ↔ bytes = c)) ∧
    ∃ bytes u source, v.encode = .ok bytes ∧
      (⟨bytes, 0, []⟩ : Source).decode 2 = (.ok u, source) ∧
      source.unread = [] ∧ u = v.normalize ∧ u.encode = .ok bytes := by
  intro v data
  have hdecode : (⟨data, 0, []⟩ : Source).decode 2 = (.ok v, ⟨[0], 29, []⟩) := by cbv
  have htexts : ∀ s ∈ v.texts, s.utf8ByteSize < 2 ^ 63 := by decide
  obtain ⟨hshortest, hstable⟩ := encode_decoded_shortest 2
  obtain ⟨hread, hagain⟩ := hstable v v.encoding v.encode_eq htexts
  obtain ⟨u, source, hu⟩ := hread (by decide)
  exact ⟨hdecode, hshortest data 0 v _ hdecode, v.encoding, u, source, v.encode_eq, hu,
    hagain u source hu⟩

end Source

end EcmaTree
