import EcmaTree.Proofs.Faults

/-!
# Decoding makes progress

On data without faults a read takes the next bytes, whatever comes of it, and
leaves what follows them: a text whose length promises more than there is takes
just what is there.  The first byte of an item is taken before anything else is
looked at, so every turn of a run takes a byte unless none is left, and a run has
no more turns than there are bytes, and one.

A read of a value that fails leaves the source where it failed.  The next read
goes on from there and takes at least one byte in turn, so that after as many
reads as there were bytes nothing is left, and all that the reads after these can
find is the end of the data.
-/

namespace EcmaTree

/-! ## The bytes that a source has given -/

/-- A source has given some bytes, without a fault, when another is left. -/
structure Source.Gives (source : Source) (c : List UInt8) (source' : Source) : Prop where
  unread : source.unread = c ++ source'.unread
  position : source'.position = source.position + c.length
  faults : source'.faults = source.faults

namespace Source.Gives

theorem refl (source : Source) : source.Gives [] source :=
  ⟨rfl, rfl, rfl⟩

theorem trans
    {source middle last : Source} {c d : List UInt8}
    (hfirst : source.Gives c middle) (hlast : middle.Gives d last) :
    source.Gives (c ++ d) last where
  unread := by rw [hfirst.unread, hlast.unread, List.append_assoc]
  position := by rw [hlast.position, hfirst.position, List.length_append, Nat.add_assoc]
  faults := hlast.faults.trans hfirst.faults

/-- As many bytes fewer are left. -/
theorem length_unread
    {source source' : Source} {c : List UInt8} (h : source.Gives c source') :
    source'.unread.length + c.length = source.unread.length := by
  rw [h.unread, List.length_append, Nat.add_comm]

end Source.Gives

namespace Source

/-- A read takes the bytes asked for, or all there are if these are fewer. -/
theorem gives_take
    {source : Source} (hfaults : source.faults = []) (n : Nat) :
    source.Gives (source.unread.take n) (source.take n).2 := by
  have hfar : source.take n = source.takePlain n := by
    apply take_of_all_far
    rw [hfaults]
    exact List.forall_mem_nil _
  rw [hfar, takePlain]
  split
  next henough => exact ⟨(List.take_append_drop n source.unread).symm, by rw [henough], rfl⟩
  next hshort =>
    have hall : source.unread.take n = source.unread := by
      apply List.take_of_length_le
      rw [List.length_take] at hshort
      omega
    exact ⟨by rw [hall, List.append_nil], rfl, rfl⟩

end Source

namespace Decoder

/-! ## Turns -/

/-- A computation that, on data without faults, takes the next bytes and leaves
what follows them, whether it succeeds or not. -/
def ReadsOn {α : Type} (m : Decode α) : Prop :=
  ∀ source : Source, source.faults = [] → ∃ c, source.Gives c (sourceAfter m source)

theorem readsOn_bind
    {α β : Type} {m : Decode α} {f : α → Decode β}
    (hm : ReadsOn m) (hf : ∀ a, ReadsOn (f a)) :
    ReadsOn (m >>= f) := by
  intro source hfaults
  obtain ⟨c, hfirst⟩ := hm source hfaults
  simp only [sourceAfter, bind, EStateM.bind] at hfirst ⊢
  cases hrun : m source with
  | error error source' =>
      rw [hrun] at hfirst
      exact ⟨c, hfirst⟩
  | ok a source' =>
      rw [hrun] at hfirst
      obtain ⟨d, hsecond⟩ := hf a source' (hfirst.faults.trans hfaults)
      exact ⟨c ++ d, hfirst.trans hsecond⟩

theorem readsOn_takeBytes (n : Nat) : ReadsOn (takeBytes n) := by
  intro source hfaults
  rw [sourceAfter_takeBytes]
  exact ⟨source.unread.take n, Source.gives_take hfaults n⟩

theorem compositional_readsOn : Compositional ReadsOn where
  pure _ source _ := ⟨[], .refl source⟩
  throw _ source _ := ⟨[], .refl source⟩
  bind := readsOn_bind
  takeBytes := readsOn_takeBytes

theorem takeByte_of_cons
    {source : Source} (hfaults : source.faults = []) {b : UInt8} {rest : List UInt8}
    (hunread : source.unread = b :: rest) :
    takeByte source = .ok b ⟨rest, source.position + 1, []⟩ := by
  obtain ⟨unread, position, faults⟩ := source
  cases hfaults
  cases hunread
  exact (recognizes_takeByte _ _ _ _).mpr ⟨[b], rest, rfl, rfl, rfl⟩

theorem step_of_unread_eq_nil
    {source : Source} (hfaults : source.faults = []) (hunread : source.unread = [])
    (bound : Nat) (stack : List Frame) :
    step bound stack source = .error .unexpectedEnd source := by
  obtain ⟨unread, position, faults⟩ := source
  cases hfaults
  cases hunread
  rfl

/-- A turn takes the next bytes, and at least one if any are left. -/
theorem exists_gives_step
    {source : Source} (hfaults : source.faults = []) (bound : Nat) (stack : List Frame) :
    ∃ c, source.Gives c (sourceAfter (step bound stack) source) ∧
      (source.unread ≠ [] → c ≠ []) := by
  cases hunread : source.unread with
  | nil =>
      obtain ⟨c, hgives⟩ := compositional_readsOn.step bound stack source hfaults
      exact ⟨c, hgives, fun h => absurd rfl h⟩
  | cons b rest =>
      have hbyte := takeByte_of_cons hfaults hunread
      have hfirst : source.Gives [b] ⟨rest, source.position + 1, []⟩ :=
        ⟨hunread, rfl, hfaults.symm⟩
      obtain ⟨c, hrest⟩ :=
        compositional_readsOn.stepByte bound stack b ⟨rest, source.position + 1, []⟩ rfl
      have hstep : sourceAfter (step bound stack) source =
          sourceAfter (stepByte bound stack b) ⟨rest, source.position + 1, []⟩ := by
        simp only [sourceAfter, step, bind, EStateM.bind, hbyte]
      rw [hstep]
      exact ⟨b :: c, hfirst.trans hrest, fun _ => List.cons_ne_nil b c⟩

/-- A run that ends after a number of turns.  In each of them one item is read,
and there is another turn as long as no item fails or completes the value. -/
inductive Turns (bound : Nat) :
    Nat → List Frame → Source → Except DecodeError Value × Source → Prop where
  | finish {stack : List Frame} {source source' : Source} {v : Value}
      (hstep : step bound stack source = .ok (.finished v) source') :
      Turns bound 1 stack source (.ok v, source')
  | fail {stack : List Frame} {source source' : Source} {error : DecodeError}
      (hstep : step bound stack source = .error error source') :
      Turns bound 1 stack source (.error error, source')
  | goOn {k : Nat} {stack stack' : List Frame} {source source' : Source}
      {outcome : Except DecodeError Value × Source}
      (hstep : step bound stack source = .ok (.pending stack') source')
      (hrest : Turns bound k stack' source' outcome) :
      Turns bound (k + 1) stack source outcome

/-- A run ends.  It takes the next bytes, at least one if any are left, and has at
most one turn more than it takes bytes. -/
theorem exists_turns_run
    {source : Source} (hfaults : source.faults = []) (bound : Nat) (stack : List Frame) :
    ∃ k c, Turns bound k stack source (run bound stack source) ∧ k ≤ c.length + 1 ∧
      source.Gives c (run bound stack source).2 ∧ (source.unread ≠ [] → c ≠ []) := by
  fun_induction run bound stack source with
  | case1 stack source v source' hstep =>
      obtain ⟨c, hgives, hsome⟩ := exists_gives_step hfaults bound stack
      simp only [sourceAfter, hstep] at hgives
      exact ⟨1, c, .finish hstep, Nat.le_add_left 1 _, hgives, hsome⟩
  | case2 stack source stack' source' hstep ih =>
      obtain ⟨c, hgives, hsome⟩ := exists_gives_step hfaults bound stack
      simp only [sourceAfter, hstep] at hgives
      obtain ⟨k, d, hturns, hk, hrest, -⟩ := ih (hgives.faults.trans hfaults)
      -- An item has been read, so this turn has its own byte to count.
      have hshorter := step_unread_lt hstep
      have hlength := hgives.length_unread
      refine ⟨k + 1, c ++ d, .goOn hstep hturns, ?_, hgives.trans hrest, ?_⟩
      · rw [List.length_append]
        omega
      · intro hunread
        exact List.append_ne_nil_of_left_ne_nil (hsome hunread) d
  | case3 stack source error source' hstep =>
      obtain ⟨c, hgives, hsome⟩ := exists_gives_step hfaults bound stack
      simp only [sourceAfter, hstep] at hgives
      exact ⟨1, c, .fail hstep, Nat.le_add_left 1 _, hgives, hsome⟩

end Decoder

namespace Source

/-! ## One read after another -/

theorem decodeTimes_succ_snd (source : Source) (bound n : Nat) :
    (source.decodeTimes bound (n + 1)).2 = ((source.decodeTimes bound n).2.decode bound).2 := by
  induction n generalizing source with
  | zero => rfl
  | succ n ih =>
      rw [decodeTimes_succ, decodeTimes_succ source bound n]
      exact ih _

/-- Each outcome is that of decoding what the reads before it have left. -/
theorem getElem?_decodeTimes
    (source : Source) (bound : Nat) {i n : Nat} (h : i < n) :
    (source.decodeTimes bound n).1[i]? = some ((source.decodeTimes bound i).2.decode bound).1 := by
  induction n generalizing source i with
  | zero => exact absurd h (Nat.not_lt_zero i)
  | succ n ih =>
      cases i with
      | zero => rfl
      | succ i =>
          rw [decodeTimes_succ, List.getElem?_cons_succ, ih _ (Nat.lt_of_succ_lt_succ h)]
          rfl

section

variable {source : Source} (hfaults : source.faults = []) (bound : Nat)

include hfaults

theorem faults_decodeTimes (n : Nat) : (source.decodeTimes bound n).2.faults = [] := by
  induction n with
  | zero => exact hfaults
  | succ n ih =>
      obtain ⟨_, _, _, _, hgives, _⟩ := Decoder.exists_turns_run ih bound []
      rw [decodeTimes_succ_snd]
      exact hgives.faults.trans ih

/-- Every read takes a byte, as long as there are any. -/
theorem length_unread_decodeTimes (n : Nat) :
    (source.decodeTimes bound n).2.unread.length ≤ source.unread.length - n := by
  induction n with
  | zero => exact Nat.le_refl _
  | succ n ih =>
      have hnow := faults_decodeTimes hfaults bound n
      obtain ⟨_, c, _, _, hgives, hsome⟩ := Decoder.exists_turns_run hnow bound []
      have hlength := hgives.length_unread
      rw [decodeTimes_succ_snd, decode]
      by_cases hunread : (source.decodeTimes bound n).2.unread = []
      · rw [hunread, List.length_nil] at hlength
        omega
      · have hpositive : 0 < c.length := List.length_pos_iff.mpr (hsome hunread)
        omega

theorem decode_of_exhausted (hunread : source.unread = []) :
    source.decode bound = (.error .unexpectedEnd, source) :=
  Decoder.run_of_step_error (Decoder.step_of_unread_eq_nil hfaults hunread bound [])

/-- Each of the reads from data without faults ends, whatever the reads before it
have found.  It takes the next bytes of what these have left, at least one if any
are left, and ends after at most one turn more than it takes bytes.  After as many
reads as there were bytes, every read finds the end of the data. -/
theorem decode_always_progresses (i : Nat) :
    ∃ (outcome : Except DecodeError Value) (turns : Nat) (c : List UInt8),
      (∀ n, i < n → (source.decodeTimes bound n).1[i]? = some outcome) ∧
      Decoder.Turns bound turns [] (source.decodeTimes bound i).2
        (outcome, (source.decodeTimes bound (i + 1)).2) ∧
      turns ≤ c.length + 1 ∧
      (source.decodeTimes bound i).2.Gives c (source.decodeTimes bound (i + 1)).2 ∧
      ((source.decodeTimes bound i).2.unread ≠ [] → c ≠ []) ∧
      (source.unread.length ≤ i → outcome = .error .unexpectedEnd) := by
  have hnow := faults_decodeTimes hfaults bound i
  obtain ⟨turns, c, hturns, hcount, hgives, hsome⟩ := Decoder.exists_turns_run hnow bound []
  refine ⟨_, turns, c, fun n => getElem?_decodeTimes source bound, ?_, hcount, ?_, hsome, ?_⟩
  · rw [decodeTimes_succ_snd]
    exact hturns
  · rw [decodeTimes_succ_snd]
    exact hgives
  · intro hlength
    have hleft := length_unread_decodeTimes hfaults bound i
    rw [Nat.sub_eq_zero_of_le hlength, Nat.le_zero, List.length_eq_zero_iff] at hleft
    rw [decode_of_exhausted hnow bound hleft]

end

/-- Two brackets of which the second is too deep, and a text that is said to have
`2 ^ 63 - 1` bytes.  The first read fails at the second bracket and the next one
at the end of the data, and so does the one that comes after as many reads as
there are bytes. -/
theorem decode_always_progresses_hostile :
    let source : Source :=
      ⟨[0x5B, 0x5B, 0x53, 0x4C, 0xFF, 0xFF, 0xFF, 0xFF, 0xFF, 0xFF, 0xFF, 0x7F, 0x61], 0, []⟩
    source.faults = [] ∧
      (source.decodeTimes 1 2).1 = [.error (.tooDeep 1), .error .unexpectedEnd] ∧
      ∀ n, 13 < n → (source.decodeTimes 1 n).1[13]? = some (.error .unexpectedEnd) := by
  intro source
  have hreads :
      ((⟨[0x5B, 0x5B, 0x53, 0x4C, 0xFF, 0xFF, 0xFF, 0xFF, 0xFF, 0xFF, 0xFF, 0x7F, 0x61], 0, []⟩ :
        Source).decodeTimes 1 2).1 = [.error (.tooDeep 1), .error .unexpectedEnd] := by
    cbv
  obtain ⟨outcome, _, _, houtcome, _, _, _, _, hend⟩ :=
    decode_always_progresses (Eq.refl source.faults) 1 13
  rw [hend (Nat.le_refl 13)] at houtcome
  exact ⟨rfl, hreads, houtcome⟩

end Source

end EcmaTree
