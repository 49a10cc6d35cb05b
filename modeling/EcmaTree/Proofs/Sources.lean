import EcmaTree.Proofs.Parsing

/-!
# Reading from a source and from a changed one

A read of some bytes meets a fault when it wants bytes behind the offset of the
fault and the data reach that far.  It then goes on or ends, according to the
kind of the fault.

Many facts about decoding say that a change of the source makes no difference:
reading from the changed source gives the same, and leaves the changed rest.  If
this is so of reads of bytes, it is so of all steps, and therefore of runs.
-/

namespace EcmaTree

namespace Source

/-! ## Where a read meets a fault -/

section Reading

variable {unread : List UInt8} {position offset room n : Nat} {fault : Fault}
  (faults : List (Nat × Fault)) (hroom : offset - position = room)

/-- The outcome of a read to which given bytes, read before, are added. -/
def precede (bytes : List UInt8) :
    Except Fault (List UInt8) × Source → Except Fault (List UInt8) × Source
  | (outcome, source) => (outcome.map (bytes ++ ·), source)

theorem precede_precede
    (first second : List UInt8) (outcome : Except Fault (List UInt8) × Source) :
    precede first (precede second outcome) = precede (first ++ second) outcome := by
  obtain ⟨_ | more, source⟩ := outcome
  · rfl
  · simp only [precede, Except.map, List.append_assoc]

theorem precede_error
    {bytes : List UInt8} {outcome : Except Fault (List UInt8) × Source}
    (h : outcome.1 = .error fault) :
    (precede bytes outcome).1 = .error fault := by
  rw [precede, h]
  rfl

include hroom

/-- A fault behind the bytes wanted, or behind the data, is not met. -/
theorem take_of_far (h : n ≤ room ∨ unread.length < room) :
    (⟨unread, position, (offset, fault) :: faults⟩ : Source).take n =
      takePlain ⟨unread, position, (offset, fault) :: faults⟩ n := by
  simp only [take, takePast, List.length_take, hroom]
  split
  · rfl
  · rw [if_pos (by omega)]

/-- After an interruption reading goes on. -/
theorem take_of_interrupted
    (hkind : fault.kind = .interrupted) (hwanted : room < n) (hthere : room ≤ unread.length) :
    (⟨unread, position, (offset, fault) :: faults⟩ : Source).take n =
      precede (unread.take room)
        ((⟨unread.drop room, position + room, faults⟩ : Source).take (n - room)) := by
  simp only [take, takePast, List.length_take, hroom]
  rw [if_neg (by omega), if_neg (by omega), if_pos hkind]
  split
  next heq =>
    rw [heq]
    rfl
  next heq =>
    rw [heq]
    rfl

/-- Another fault ends the read. -/
theorem take_of_fault
    (hkind : fault.kind ≠ .interrupted) (hwanted : room < n) (hthere : room ≤ unread.length) :
    (⟨unread, position, (offset, fault) :: faults⟩ : Source).take n =
      (.error fault, ⟨unread.drop room, position + room, faults⟩) := by
  simp only [take, takePast, List.length_take, hroom]
  rw [if_neg (by omega), if_neg (by omega), if_neg hkind]

end Reading

/-- Faults that all lie behind the bytes wanted, or behind the data, are not met. -/
theorem take_of_all_far
    {source : Source} {n : Nat}
    (h : ∀ f ∈ source.faults,
      n ≤ f.1 - source.position ∨ source.unread.length < f.1 - source.position) :
    source.take n = source.takePlain n := by
  obtain ⟨unread, position, _ | ⟨⟨offset, fault⟩, faults⟩⟩ := source
  · rfl
  · exact take_of_far faults rfl (h _ List.mem_cons_self)

end Source

namespace Decoder

/-! ## Changes of the source -/

section Changes

variable (change : Source → Source) (Admitted : Source → Prop) (Excused : DecodeError → Prop)

/-- A computation to which a change of the source makes no difference.  It need
not be so on sources that are not admitted, nor where it ends with an excused
error; an admitted source leaves an admitted rest. -/
def Respects {α : Type} (m : Decode α) : Prop :=
  ∀ source, Admitted source →
    match m source with
    | .ok a source' => Admitted source' ∧ m (change source) = .ok a (change source')
    | .error error source' =>
      Admitted source' ∧ (Excused error ∨ m (change source) = .error error (change source'))

variable {change Admitted Excused}

theorem respects_bind
    {α β : Type} {m : Decode α} {f : α → Decode β}
    (hm : Respects change Admitted Excused m) (hf : ∀ a, Respects change Admitted Excused (f a)) :
    Respects change Admitted Excused (m >>= f) := by
  intro source hsource
  have hfirst := hm source hsource
  simp only [bind, EStateM.bind]
  cases hrun : m source with
  | ok a source' =>
      simp only [hrun] at hfirst ⊢
      rw [hfirst.2]
      exact hf a source' hfirst.1
  | error error source' =>
      simp only [hrun] at hfirst ⊢
      refine ⟨hfirst.1, hfirst.2.imp_right ?_⟩
      intro hsame
      rw [hsame]

theorem compositional_respects
    (htake : ∀ n, Respects change Admitted Excused (takeBytes n)) :
    Compositional (Respects change Admitted Excused) where
  pure _ _ hsource := ⟨hsource, rfl⟩
  throw _ _ hsource := ⟨hsource, .inr rfl⟩
  bind := respects_bind
  takeBytes := htake

/-- What reads of bytes respect is respected by runs. -/
theorem run_change
    (htake : ∀ n, Respects change Admitted Excused (takeBytes n))
    {bound : Nat} {stack : List Frame} {source : Source} (hsource : Admitted source) :
    Admitted (run bound stack source).2 ∧
      ((∃ error, Excused error ∧ (run bound stack source).1 = .error error) ∨
        run bound stack (change source) = Prod.map id change (run bound stack source)) := by
  have hsteps := (compositional_respects htake).step bound
  fun_induction run bound stack source with
  | case1 stack source v source' hstep =>
      have hnext := hsteps stack source hsource
      simp only [hstep] at hnext
      exact ⟨hnext.1, .inr (run_of_step_ok hnext.2)⟩
  | case2 stack source stack' source' hstep ih =>
      have hnext := hsteps stack source hsource
      simp only [hstep] at hnext
      obtain ⟨hlater, hrest⟩ := ih hnext.1
      refine ⟨hlater, hrest.imp_right ?_⟩
      intro hsame
      exact (run_of_step_ok hnext.2).trans hsame
  | case3 stack source error source' hstep =>
      have hnext := hsteps stack source hsource
      simp only [hstep] at hnext
      refine ⟨hnext.1, ?_⟩
      rcases hnext.2 with hexcused | hsame
      · exact .inl ⟨error, hexcused, rfl⟩
      · exact .inr (run_of_step_error hsame)

end Changes

end Decoder

end EcmaTree
