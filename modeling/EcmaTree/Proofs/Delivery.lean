import EcmaTree.Proofs.Layout
import EcmaTree.Proofs.Nesting
import EcmaTree.Wire.Writer

/-!
# From events to bytes

A write that succeeds has handed over all of its bytes.  A checked writer does
one of three things with an event: it refuses the event and stays as it was, or
it sends the encoding of the event and follows it, or the sink fails and the
nesting is as before.  On a sink that takes everything the bytes of a value are
the encodings of its events.
-/

namespace EcmaTree

/-! ## Sinks -/

namespace Sink

theorem deliver_accepted_of_ok
    {flushes : List (Option Fault)} {bytes : List UInt8} {log : List SinkCall}
    {responses : List Response} {s : Sink}
    (h : deliver flushes bytes log responses = (.ok (), s)) :
    s.accepted = log.reverse.flatMap SinkCall.taken ++ bytes := by
  induction responses generalizing bytes log with
  | nil =>
      cases h
      simp [accepted, SinkCall.taken]
  | cons response responses ih =>
      cases response with
      | takeAll =>
          cases h
          simp [accepted, SinkCall.taken]
      | takeAtMost n =>
          simp only [deliver] at h
          split at h
          · cases h
          · split at h
            next hlen =>
              cases h
              simp [accepted, SinkCall.taken, List.take_of_length_le hlen]
            · rw [ih h]
              simp [SinkCall.taken]
      | fail fault =>
          simp only [deliver] at h
          split at h
          · rw [ih h]
            simp [SinkCall.taken]
          · cases h

/-- A write that succeeds has handed over all of its bytes. -/
theorem writeAll_accepted_of_ok
    {s s' : Sink} {bytes : List UInt8} (h : s.writeAll bytes = (.ok (), s')) :
    s'.accepted = s.accepted ++ bytes := by
  rw [writeAll] at h
  split at h
  next hempty =>
    cases h
    simp [List.isEmpty_iff.mp hempty]
  · exact deliver_accepted_of_ok h

theorem writeAll_of_no_responses
    {s : Sink} (h : s.responses = []) (bytes : List UInt8) :
    ∃ s', s.writeAll bytes = (.ok (), s') ∧ s'.responses = [] ∧ s'.flushes = s.flushes := by
  rw [writeAll]
  split
  · exact ⟨s, rfl, h, rfl⟩
  · rw [h]
    exact ⟨_, rfl, rfl, rfl⟩

@[simp] theorem flush_accepted (s : Sink) : s.flush.2.accepted = s.accepted := by
  simp only [flush]
  split <;> simp [accepted, SinkCall.taken]

theorem flush_of_no_flushes
    {s : Sink} (h : s.flushes = []) :
    s.flush.1 = .ok () := by
  rw [flush, h]

end Sink

/-! ## One event -/

namespace Writer

theorem transmit_eq (w : Writer) (e : Event) :
    w.transmit e =
      ((w.sink.writeAll e.encoding).1.mapError .sink,
        { w with sink := (w.sink.writeAll e.encoding).2, scratch := w.scratch.fill e }) := by
  rw [transmit, Scratch.take_fill]

/-- What a checked writer of a given nesting may answer to an event, and what
becomes of it. -/
inductive Answers (w : Writer) (n : Nesting) (e : Event) :
    Except WriteError Unit → Writer → Prop where
  | refused {error : NestingError} (haccept : n.accept e.outline = (.error error, n)) :
      Answers w n e (.error (.nesting error)) w
  | sent {n' : Nesting} {sink : Sink} (haccept : n.accept e.outline = (.ok (), n'))
      (hsink : w.sink.writeAll e.encoding = (.ok (), sink)) :
      Answers w n e (.ok ()) ⟨sink, w.scratch.fill e, some n'⟩
  | failed {n' : Nesting} {fault : Fault} {sink : Sink}
      (haccept : n.accept e.outline = (.ok (), n'))
      (hsink : w.sink.writeAll e.encoding = (.error fault, sink)) :
      Answers w n e (.error (.sink fault)) ⟨sink, w.scratch.fill e, some n⟩

theorem write_of_refused
    {w : Writer} {n : Nesting} {e : Event} {error : NestingError}
    (hn : w.nesting = some n) (h : n.accept e.outline = (.error error, n)) :
    w.write e = (.error (.nesting error), w) := by
  have hsame : { w with nesting := some n } = w := by rw [← hn]
  simp only [write, hn, h, hsame]

theorem answers_write
    {w : Writer} {n : Nesting} (hn : w.nesting = some n) (e : Event) :
    Answers w n e (w.write e).1 (w.write e).2 := by
  obtain ⟨n', haccept⟩ | ⟨error, haccept⟩ := n.accept_eq_ok_or_error e.outline
  · simp only [write, hn, haccept, transmit_eq]
    cases hsink : w.sink.writeAll e.encoding with
    | mk result sink =>
        cases result with
        | ok => exact .sent haccept hsink
        | error fault =>
            -- The writer takes the event back, which restores the nesting before it.
            simp only [Except.mapError, Option.map_some, Nesting.rollback_accept haccept]
            exact .failed haccept hsink
  · rw [write_of_refused hn haccept]
    exact .refused haccept

/-- An event that is written is sent as a whole, whether the writer checks or not. -/
theorem write_accepted_of_ok
    {w w' : Writer} {e : Event} (h : w.write e = (.ok (), w')) :
    w'.sink.accepted = w.sink.accepted ++ e.encoding := by
  cases hn : w.nesting with
  | some n =>
      have hanswer := answers_write hn e
      rw [h] at hanswer
      cases hanswer with
      | sent _ hsink => exact Sink.writeAll_accepted_of_ok hsink
  | none =>
      rw [write, hn] at h
      simp only [transmit_eq] at h
      cases hsink : w.sink.writeAll e.encoding with
      | mk result sink =>
          rw [hsink] at h
          cases result with
          | error fault => cases h
          | ok =>
              cases h
              exact Sink.writeAll_accepted_of_ok hsink

theorem writeEvents_accepted_of_ok
    {w w' : Writer} {es : List Event} (h : w.writeEvents es = (.ok (), w')) :
    w'.sink.accepted = w.sink.accepted ++ es.flatMap Event.encoding := by
  induction es generalizing w with
  | nil =>
      cases h
      simp
  | cons e es ih =>
      rw [writeEvents, Event.feed] at h
      split at h
      next w₁ hwrite =>
        rw [ih h, write_accepted_of_ok hwrite, List.flatMap_cons, List.append_assoc]
      · cases h

/-! ## Sinks that take everything -/

/-- On such a sink accepted events are sent one after another. -/
theorem writeEvents_of_acceptAll
    {w : Writer} {n n' : Nesting} {es : List Event}
    (hnesting : w.nesting = some n) (hsink : w.sink.responses = [])
    (haccept : n.acceptAll (es.map Event.outline) = (.ok (), n')) :
    ∃ w', w.writeEvents es = (.ok (), w') ∧ w'.nesting = some n' ∧
      w'.sink.flushes = w.sink.flushes ∧
      w'.sink.accepted = w.sink.accepted ++ es.flatMap Event.encoding := by
  induction es generalizing w n with
  | nil =>
      cases haccept
      exact ⟨w, rfl, hnesting, rfl, by simp⟩
  | cons e es ih =>
      obtain ⟨m, hevent, hrest⟩ := Nesting.acceptAll_cons_eq_ok_iff.mp haccept
      obtain ⟨sink, hwrite, hresponses, hflushes⟩ :=
        Sink.writeAll_of_no_responses hsink e.encoding
      have hanswer := answers_write hnesting e
      rw [writeEvents, Event.feed]
      generalize w.write e = answer at hanswer
      obtain ⟨result, w₁⟩ := answer
      cases hanswer with
      | refused hrefused =>
          rw [hevent] at hrefused
          cases hrefused
      | failed _ hfailed =>
          rw [hwrite] at hfailed
          cases hfailed
      | sent hsent hdone =>
          rw [hwrite] at hdone
          cases hdone
          rw [hevent] at hsent
          cases hsent
          obtain ⟨w', hw', hn', hflush', haccepted'⟩ :=
            ih (w := ⟨sink, w.scratch.fill e, _⟩) rfl hresponses hrest
          refine ⟨w', hw', hn', hflush'.trans hflushes, ?_⟩
          rw [haccepted', Sink.writeAll_accepted_of_ok hwrite, List.flatMap_cons,
            List.append_assoc]

/-- The bytes of complete events are their encodings. -/
theorem encodeEvents_eq
    {es : List Event} {n : Nesting}
    (haccept : Nesting.acceptAll {} (es.map Event.outline) = (.ok (), n))
    (hfinish : n.finish = .ok ()) :
    encodeEvents es = .ok (es.flatMap Event.encoding) := by
  obtain ⟨w, hw, hn, hflushes, haccepted⟩ :=
    writeEvents_of_acceptAll (w := checked {}) rfl rfl haccept
  simp only [encodeEvents, hw, finish, hn, Option.elim, hfinish, flush,
    Sink.flush_of_no_flushes hflushes, Except.mapError, Sink.flush_accepted, haccepted]
  rfl

end Writer

/-- The encodings of the events of a value, one after another. -/
def Value.encoding (v : Value) : List UInt8 :=
  v.events.flatMap Event.encoding

/-- Every value can be encoded. -/
theorem Value.encode_eq (v : Value) : v.encode = .ok v.encoding :=
  Writer.encodeEvents_eq (Nesting.acceptAll_skeleton_empty v) rfl

end EcmaTree
