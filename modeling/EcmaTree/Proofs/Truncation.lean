import EcmaTree.Proofs.Sources

/-!
# Data that are cut short

Decoding stops as soon as its outcome is certain.  Unless the data end too
early, more data behind them are left alone and change nothing.  So data that
hold a value cannot be cut anywhere inside of it without notice: if a shorter
part had another outcome than that the data end too early, the whole would have
that outcome as well.
-/

namespace EcmaTree

namespace Source

/-- A source with more data behind those that are there. -/
def followedBy (source : Source) (more : List UInt8) : Source :=
  { source with unread := source.unread ++ more }

@[simp] theorem unread_followedBy (source : Source) (more : List UInt8) :
    (source.followedBy more).unread = source.unread ++ more :=
  rfl

/-! ## Reading bytes -/

theorem takePlain_of_short
    {source : Source} {n : Nat} (h : source.unread.length < n) :
    (source.takePlain n).1 = .error .endOfData := by
  have hlength : (source.unread.take n).length ≠ n := by
    rw [List.length_take]
    omega
  rw [takePlain, if_neg hlength]

theorem takePlain_followedBy
    {source : Source} {n : Nat} (more : List UInt8)
    (h : (source.takePlain n).1 ≠ .error .endOfData) :
    (source.followedBy more).takePlain n =
      ((source.takePlain n).1, (source.takePlain n).2.followedBy more) := by
  have henough : n ≤ source.unread.length := by
    by_contra hshort
    exact h (takePlain_of_short (Nat.lt_of_not_le hshort))
  have hlength : (source.unread.take n).length = n := List.length_take_of_le henough
  simp only [takePlain, unread_followedBy, List.take_append_of_le_length henough,
    List.drop_append_of_le_length henough, hlength, if_true]
  rfl

/-- A read that does not run out of data takes nothing of what follows. -/
theorem take_followedBy
    {source : Source} {n : Nat} (more : List UInt8)
    (h : (source.take n).1 ≠ .error .endOfData) :
    (source.followedBy more).take n =
      ((source.take n).1, (source.take n).2.followedBy more) := by
  obtain ⟨unread, position, faults⟩ := source
  induction faults generalizing n unread position with
  | nil => exact takePlain_followedBy more h
  | cons head faults ih =>
      obtain ⟨offset, fault⟩ := head
      generalize hroom : offset - position = room
      by_cases hmet : room < n ∧ room ≤ unread.length
      · -- The fault is met at the same place, and reading goes on or stops there.
        obtain ⟨hwanted, hthere⟩ := hmet
        have hfollowed : room ≤ (unread ++ more).length := by
          rw [List.length_append]
          omega
        rw [followedBy]
        by_cases hkind : fault.kind = .interrupted
        · rw [take_of_interrupted faults hroom hkind hwanted hthere] at h ⊢
          rw [take_of_interrupted faults hroom hkind hwanted hfollowed,
            List.take_append_of_le_length hthere, List.drop_append_of_le_length hthere]
          have hlater := ih (unread.drop room) (position + room) (mt precede_error h)
          exact congrArg (precede (unread.take room)) hlater
        · rw [take_of_fault faults hroom hkind hwanted hthere,
            take_of_fault faults hroom hkind hwanted hfollowed,
            List.drop_append_of_le_length hthere]
          rfl
      · have hfar : n ≤ room ∨ unread.length < room := by
          omega
        rw [take_of_far faults hroom hfar] at h ⊢
        have henough : n ≤ room := by
          by_contra hbeyond
          exact h (takePlain_of_short (by simp only; omega))
        have hplain := takePlain_followedBy more h
        rw [followedBy] at hplain ⊢
        rw [take_of_far faults hroom (.inl henough)]
        exact hplain

end Source

/-! ## Runs -/

namespace Decoder

/-- Unless the data end too early, it makes no difference what follows them. -/
theorem respects_followedBy (more : List UInt8) (n : Nat) :
    Respects (·.followedBy more) (fun _ => True) (· = .unexpectedEnd) (takeBytes n) := by
  intro source _
  have htake := source.take_followedBy (n := n) more
  simp only [takeBytes]
  generalize source.take n = outcome at htake ⊢
  obtain ⟨fault | bytes, source'⟩ := outcome
  · by_cases hend : fault = .endOfData
    · rw [hend]
      exact ⟨trivial, .inl rfl⟩
    · rw [htake (by simpa using hend)]
      exact ⟨trivial, .inr rfl⟩
  · rw [htake (by simp)]
    exact ⟨trivial, rfl⟩

/-- Unless the data end too early, a run goes on in the same way whatever follows. -/
theorem run_followedBy
    {bound : Nat} {stack : List Frame} {source : Source} (more : List UInt8)
    (h : (run bound stack source).1 ≠ .error .unexpectedEnd) :
    run bound stack (source.followedBy more) =
      ((run bound stack source).1, (run bound stack source).2.followedBy more) := by
  obtain ⟨-, ⟨_, rfl, hend⟩ | hsame⟩ := run_change (respects_followedBy more) trivial
  · exact absurd hend h
  · exact hsame

end Decoder

/-! ## Values -/

namespace Source

theorem followedBy_drop (source : Source) (k : Nat) :
    ({ source with unread := source.unread.take k } : Source).followedBy (source.unread.drop k) =
      source := by
  rw [followedBy, List.take_append_drop]

/-- Unless the data end too early, decoding has the same outcome whatever follows
them, and leaves all of that; and if it succeeds, then on any part of the data
that lacks some of the bytes read it finds that the data end too early.  Faults
of the source make no difference to this. -/
theorem decode_detects_truncation (source : Source) (bound : Nat) :
    (∀ more, (source.decode bound).1 ≠ .error .unexpectedEnd →
      (source.followedBy more).decode bound =
        ((source.decode bound).1, (source.decode bound).2.followedBy more)) ∧
    ∀ v source', source.decode bound = (.ok v, source') →
      ∀ k, k + source'.unread.length < source.unread.length →
        (({ source with unread := source.unread.take k } : Source).decode bound).1 =
          .error .unexpectedEnd := by
  constructor
  · intro more h
    exact Decoder.run_followedBy more h
  · intro v source' hdecode k hk
    by_contra hcut
    -- Otherwise the cut data would be read as the whole is, and what was cut off left.
    have hwhole := Decoder.run_followedBy (source.unread.drop k) hcut
    rw [followedBy_drop] at hwhole
    have hunread := congrArg (fun outcome => outcome.2.unread.length) (hdecode.symm.trans hwhole)
    simp only [unread_followedBy, List.length_append, List.length_drop] at hunread
    omega

/-- Whether a text is well formed is not asked before all of it is there: here it
is cut inside a character. -/
theorem decode_detects_truncation_text :
    (⟨[0x53, 0x6C, 2, 0, 0, 0, 0xC3, 0xA9, 0], 0, []⟩ : Source).decode 0 =
        (.ok (.text "é"), ⟨[0], 8, []⟩) ∧
      ((⟨[0x53, 0x6C, 2, 0, 0, 0, 0xC3], 0, []⟩ : Source).decode 0).1 = .error .unexpectedEnd := by
  have hdecode : (⟨[0x53, 0x6C, 2, 0, 0, 0, 0xC3, 0xA9], 0, []⟩ : Source).decode 0 =
      (.ok (.text "é"), ⟨[], 8, []⟩) := by
    cbv
  obtain ⟨hmore, hcut⟩ :=
    decode_detects_truncation ⟨[0x53, 0x6C, 2, 0, 0, 0, 0xC3, 0xA9], 0, []⟩ 0
  have hfollowed := hmore [0] (by simp [hdecode])
  rw [hdecode] at hfollowed
  exact ⟨hfollowed, hcut _ _ hdecode 7 (by decide)⟩

end Source

end EcmaTree
