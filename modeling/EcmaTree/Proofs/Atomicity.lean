import EcmaTree.Proofs.Streams

/-!
# Events are sent whole or not at all

A checked writer is asked to write an event over a sink that may take only some
of the bytes, be interrupted, or fail at any offer.  An event that is out of
place does not reach the sink.  One that the sink fails on leaves the nesting as
it was, though a part of its bytes may be gone.  Only an event that is sent to
the end moves the nesting, and what is sent does not depend on what the scratch
buffer held before.
-/

namespace EcmaTree

/-! ## Writes that fail -/

/-- A response that ends a write, with the fault that is reported for it. -/
inductive Response.Reports : Response → Fault → Prop where
  | failure {fault : Fault} (hkind : fault.kind ≠ .interrupted) : Reports (.fail fault) fault
  | nothing : Reports (.takeAtMost 0) .nothingTaken

/-- A response after which the rest of the bytes is offered: a part was taken,
or the offer was interrupted. -/
def Response.Continues : Response → Prop
  | .takeAll => False
  | .takeAtMost n => n ≠ 0
  | .fail fault => fault.kind = .interrupted

namespace Sink

/-- The responses of a write that fails end with the one that the fault comes from. -/
theorem deliver_responses_of_error
    {flushes : List (Option Fault)} {bytes : List UInt8} {log : List SinkCall}
    {responses : List Response} {fault : Fault} {s : Sink}
    (h : deliver flushes bytes log responses = (.error fault, s)) :
    ∃ earlier last, responses = earlier ++ last :: s.responses ∧
      (∀ response ∈ earlier, response.Continues) ∧ last.Reports fault := by
  induction responses generalizing bytes log with
  | nil => cases h
  | cons response responses ih =>
      -- Either the first response ends the write, or it is one more of the earlier ones.
      have hstop : response.Reports fault → s.responses = responses →
          ∃ earlier last, response :: responses = earlier ++ last :: s.responses ∧
            (∀ r ∈ earlier, r.Continues) ∧ last.Reports fault := by
        rintro hreports rfl
        exact ⟨[], response, rfl, List.forall_mem_nil _, hreports⟩
      have hgoOn : response.Continues → ∀ {bytes' log'},
          deliver flushes bytes' log' responses = (.error fault, s) →
          ∃ earlier last, response :: responses = earlier ++ last :: s.responses ∧
            (∀ r ∈ earlier, r.Continues) ∧ last.Reports fault := by
        intro hcontinues bytes' log' hrest
        obtain ⟨earlier, last, hresponses, hearlier, hlast⟩ := ih hrest
        refine ⟨response :: earlier, last, ?_, ?_, hlast⟩
        · rw [hresponses, List.cons_append]
        · exact List.forall_mem_cons.mpr ⟨hcontinues, hearlier⟩
      cases response with
      | takeAll => cases h
      | takeAtMost n =>
          simp only [deliver] at h
          split at h
          next hzero =>
            cases h
            subst hzero
            exact hstop .nothing rfl
          next hzero =>
            split at h
            · cases h
            · exact hgoOn hzero h
      | fail reported =>
          simp only [deliver] at h
          split at h
          next hkind => exact hgoOn hkind h
          next hkind =>
            cases h
            exact hstop (.failure hkind) rfl

/-- A write that fails has handed over some of its bytes, but not all. -/
theorem deliver_accepted_of_error
    {flushes : List (Option Fault)} {bytes : List UInt8} {log : List SinkCall}
    {responses : List Response} {fault : Fault} {s : Sink} (hbytes : bytes ≠ [])
    (h : deliver flushes bytes log responses = (.error fault, s)) :
    ∃ sent rest, rest ≠ [] ∧ sent ++ rest = bytes ∧
      s.accepted = log.reverse.flatMap SinkCall.taken ++ sent := by
  induction responses generalizing bytes log with
  | nil => cases h
  | cons response responses ih =>
      cases response with
      | takeAll => cases h
      | takeAtMost n =>
          simp only [deliver] at h
          split at h
          next hzero =>
            cases h
            subst hzero
            exact ⟨[], bytes, hbytes, rfl, by simp [accepted, SinkCall.taken]⟩
          · split at h
            · cases h
            next hlen =>
              have hdrop : bytes.drop n ≠ [] := by
                rw [Ne, List.drop_eq_nil_iff]
                exact hlen
              obtain ⟨sent, rest, hrest, hbytes', htaken⟩ := ih hdrop h
              refine ⟨bytes.take n ++ sent, rest, hrest, ?_, ?_⟩
              · rw [List.append_assoc, hbytes', List.take_append_drop]
              · rw [htaken]
                simp [SinkCall.taken]
      | fail reported =>
          simp only [deliver] at h
          split at h
          · obtain ⟨sent, rest, hrest, hbytes', htaken⟩ := ih hbytes h
            refine ⟨sent, rest, hrest, hbytes', ?_⟩
            rw [htaken]
            simp [SinkCall.taken]
          · cases h
            exact ⟨[], bytes, hbytes, rfl, by simp [accepted, SinkCall.taken]⟩

theorem writeAll_of_error
    {s s' : Sink} {bytes : List UInt8} {fault : Fault}
    (h : s.writeAll bytes = (.error fault, s')) :
    (∃ earlier last, s.responses = earlier ++ last :: s'.responses ∧
      (∀ response ∈ earlier, response.Continues) ∧ last.Reports fault) ∧
    ∃ sent, sent <+: bytes ∧ sent ≠ bytes ∧ s'.accepted = s.accepted ++ sent := by
  rw [writeAll] at h
  split at h
  · cases h
  next hempty =>
    have hbytes : bytes ≠ [] := by
      intro hnil
      exact hempty (List.isEmpty_iff.mpr hnil)
    obtain ⟨sent, rest, hrest, rfl, haccepted⟩ := deliver_accepted_of_error hbytes h
    refine ⟨deliver_responses_of_error h, sent, List.prefix_append _ _, ?_, haccepted⟩
    intro hall
    exact hrest (List.self_eq_append_right.mp hall)

end Sink

/-! ## Checked writers -/

namespace Writer

/-- A call does not turn a checked writer into one that trusts its caller. -/
theorem exists_nesting_call
    {w : Writer} {n : Nesting} (hn : w.nesting = some n) (c : Call) :
    ∃ n', (w.call c).2.nesting = some n' := by
  cases c with
  | flush => exact ⟨n, hn⟩
  | event e =>
      have hanswer := answers_write hn e
      change ∃ n', (w.write e).2.nesting = some n'
      generalize w.write e = answer at hanswer
      obtain ⟨result, w'⟩ := answer
      cases hanswer with
      | refused => exact ⟨n, hn⟩
      | sent => exact ⟨_, rfl⟩
      | failed => exact ⟨_, rfl⟩

theorem exists_nesting_serve
    {w : Writer} {n : Nesting} (hn : w.nesting = some n) (calls : List Call) :
    ∃ n', (w.serve calls).2.nesting = some n' := by
  induction calls generalizing w n with
  | nil => exact ⟨n, hn⟩
  | cons c calls ih =>
      obtain ⟨n', hn'⟩ := exists_nesting_call hn c
      exact ih hn'

/-- Whatever has been called on a checked writer, and whatever its sink does: an
event that is out of place changes nothing at all; if the sink fails, the
nesting is as before, the fault is one that the sink gave or that it took
nothing, and a proper part of the encoding is gone; and an event that is written
is sent as a whole and followed by the nesting.  The encoding stands in the
scratch buffer whatever was there. -/
theorem write_atomic
    {sink : Sink} {calls : List Call} {e : Event} {w w' : Writer}
    {answer : Except WriteError Unit}
    (hreach : ((checked sink).serve calls).2 = w) (hwrite : w.write e = (answer, w')) :
    (∃ n, w.nesting = some n ∧
      (∀ error, answer = .error (.nesting error) →
        n.accept e.outline = (.error error, n) ∧ w' = w) ∧
      (∀ fault, answer = .error (.sink fault) →
        w'.nesting = some n ∧
        (∃ earlier last, w.sink.responses = earlier ++ last :: w'.sink.responses ∧
          (∀ response ∈ earlier, response.Continues) ∧ last.Reports fault) ∧
        ∃ sent, sent <+: e.encoding ∧ sent ≠ e.encoding ∧
          w'.sink.accepted = w.sink.accepted ++ sent) ∧
      (answer = .ok () →
        (∃ n', n.accept e.outline = (.ok (), n') ∧ w'.nesting = some n') ∧
        w'.sink.accepted = w.sink.accepted ++ e.encoding)) ∧
    ∀ scratch : Scratch, (scratch.fill e).bytes.take e.size = e.encoding := by
  refine ⟨?_, fun scratch => scratch.take_fill e⟩
  obtain ⟨n, hn⟩ := exists_nesting_serve (w := checked sink) rfl calls
  rw [hreach] at hn
  have hanswer := answers_write hn e
  rw [hwrite] at hanswer
  refine ⟨n, hn, ?_, ?_, ?_⟩
  · rintro error rfl
    cases hanswer with
    | refused haccept => exact ⟨haccept, rfl⟩
  · rintro fault rfl
    cases hanswer with
    | failed haccept hsink => exact ⟨rfl, Sink.writeAll_of_error hsink⟩
  · rintro rfl
    cases hanswer with
    | sent haccept hsink => exact ⟨⟨_, haccept, rfl⟩, Sink.writeAll_accepted_of_ok hsink⟩

/-- Inside an array, three of five bytes are taken around an interruption before
the sink breaks; the nesting is still that of the open array. -/
theorem write_atomic_broken :
    let w := ((checked ⟨[.takeAll, .takeAtMost 1, .fail ⟨.interrupted, ""⟩, .takeAtMost 2,
      .fail ⟨.other "BrokenPipe", "gone"⟩], [], []⟩).serve [.event (.start .array)]).2
    (w.write (.int 7)).1 = .error (.sink ⟨.other "BrokenPipe", "gone"⟩) ∧
      (w.write (.int 7)).2.nesting = w.nesting ∧
      (w.write (.int 7)).2.sink.accepted = [0x5B, 0x6C, 7, 0] := by
  intro w
  obtain ⟨⟨n, hn, -, hfailed, -⟩, -⟩ := write_atomic (w := w) rfl (Eq.refl (w.write (.int 7)))
  exact ⟨rfl, (hfailed _ rfl).1.trans hn.symm, rfl⟩

end Writer

end EcmaTree
