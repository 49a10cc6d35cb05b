import EcmaTree.Proofs.Delivery
import Mathlib.Data.List.Infix

/-!
# Streams of a checked writer

A writer is called in any order, and the calls go on whatever it answers.  As
long as the sink takes nothing of a write that fails, the nesting, the bytes
taken and the events that were answered with success stay in step: the bytes are
the encodings of these events, and the nesting is where they lead.  So at every
moment the bytes are the beginning of the encoding of some value, and they are
the encoding of one value when the stream may end.
-/

namespace EcmaTree

/-! ## Calls -/

inductive Call where
  | event (e : Event)
  | flush
  deriving DecidableEq, Repr

/-- A call with the answer to it. -/
abbrev Exchange := Call × Except WriteError Unit

/-- The event of a call that succeeded. -/
def Exchange.sent? : Exchange → Option Event
  | (.event e, .ok ()) => some e
  | _ => none

/-- The events among the calls that succeeded, in order. -/
def sentEvents (exchanges : List Exchange) : List Event :=
  exchanges.filterMap Exchange.sent?

@[simp] theorem sentEvents_event_ok (e : Event) :
    sentEvents [(.event e, .ok ())] = [e] := rfl

@[simp] theorem sentEvents_event_error (e : Event) (error : WriteError) :
    sentEvents [(.event e, .error error)] = [] := rfl

@[simp] theorem sentEvents_flush (answer : Except WriteError Unit) :
    sentEvents [(.flush, answer)] = [] := rfl

theorem sentEvents_cons (exchange : Exchange) (exchanges : List Exchange) :
    sentEvents (exchange :: exchanges) = sentEvents [exchange] ++ sentEvents exchanges :=
  List.filterMap_append (l := [exchange])

namespace Writer

def call (w : Writer) : Call → Except WriteError Unit × Writer
  | .event e => w.write e
  | .flush => w.flush

/-- Answers calls one after another, also after one that fails. -/
def serve (w : Writer) : List Call → List Exchange × Writer
  | [] => ([], w)
  | c :: calls =>
    let (answer, w') := w.call c
    let (exchanges, w'') := w'.serve calls
    ((c, answer) :: exchanges, w'')

/-- The sink takes no byte in those of the calls in which it fails. -/
def FailsCleanly (w : Writer) : List Call → Prop
  | [] => True
  | c :: calls =>
    (∀ fault, (w.call c).1 = .error (.sink fault) →
      (w.call c).2.sink.accepted = w.sink.accepted) ∧
    (w.call c).2.FailsCleanly calls

/-! ## The invariant -/

/-- A checked writer and the events that it has sent. -/
structure InStep (w : Writer) (es : List Event) : Prop where
  nesting : ∃ n, w.nesting = some n ∧ Nesting.acceptAll {} (es.map Event.outline) = (.ok (), n)
  accepted : w.sink.accepted = es.flatMap Event.encoding

theorem inStep_checked
    (responses : List Response) (flushes : List (Option Fault)) :
    InStep (checked ⟨responses, flushes, []⟩) [] where
  nesting := ⟨{}, rfl, rfl⟩
  accepted := rfl

theorem InStep.write
    {w : Writer} {es : List Event} (h : InStep w es) (e : Event)
    (hclean : ∀ fault, (w.write e).1 = .error (.sink fault) →
      (w.write e).2.sink.accepted = w.sink.accepted) :
    InStep (w.write e).2 (es ++ sentEvents [(.event e, (w.write e).1)]) := by
  obtain ⟨n, hn, haccept⟩ := h.nesting
  have hanswer := answers_write hn e
  generalize w.write e = answer at hanswer hclean ⊢
  obtain ⟨result, w'⟩ := answer
  cases hanswer with
  | refused => simpa using h
  | failed hevent hsink =>
      rw [sentEvents_event_error, List.append_nil]
      exact ⟨⟨n, rfl, haccept⟩, (hclean _ rfl).trans h.accepted⟩
  | @sent n' sink hevent hsink =>
      rw [sentEvents_event_ok]
      refine ⟨⟨n', rfl, ?_⟩, ?_⟩
      · rw [List.map_append, Nesting.acceptAll_append_of_ok haccept]
        exact (Nesting.acceptAll_singleton n e.outline).trans hevent
      · rw [Sink.writeAll_accepted_of_ok hsink, h.accepted, List.flatMap_append]
        simp

theorem InStep.flush
    {w : Writer} {es : List Event} (h : InStep w es) :
    InStep w.flush.2 es where
  nesting := h.nesting
  accepted := (Sink.flush_accepted w.sink).trans h.accepted

/-- Any call keeps a writer in step. -/
theorem InStep.call
    {w : Writer} {es : List Event} (h : InStep w es) (c : Call)
    (hclean : ∀ fault, (w.call c).1 = .error (.sink fault) →
      (w.call c).2.sink.accepted = w.sink.accepted) :
    InStep (w.call c).2 (es ++ sentEvents [(c, (w.call c).1)]) := by
  cases c with
  | event e => exact h.write e hclean
  | flush =>
      rw [sentEvents_flush, List.append_nil]
      exact h.flush

/-- Any number of calls keep a writer in step. -/
theorem InStep.serve
    {w : Writer} {es : List Event} (h : InStep w es) {calls : List Call}
    (hclean : w.FailsCleanly calls) :
    InStep (w.serve calls).2 (es ++ sentEvents (w.serve calls).1) := by
  induction calls generalizing w es with
  | nil => simpa [Writer.serve, sentEvents] using h
  | cons c calls ih =>
      have hrest := ih (h.call c hclean.1) hclean.2
      rw [List.append_assoc, ← sentEvents_cons] at hrest
      exact hrest

/-! ## What the bytes are -/

theorem InStep.exists_encode_prefix
    {w : Writer} {es : List Event} (h : InStep w es) :
    ∃ (v : Value) (bytes : List UInt8), v.encode = .ok bytes ∧ w.sink.accepted <+: bytes := by
  obtain ⟨n, -, haccept⟩ := h.nesting
  obtain ⟨v, hv⟩ := Nesting.exists_events_prefix haccept
  refine ⟨v, v.encoding, v.encode_eq, ?_⟩
  rw [h.accepted, Value.encoding]
  exact hv.flatMap Event.encoding

theorem InStep.exists_encode_eq
    {w : Writer} {es : List Event} (h : InStep w es)
    (hfinish : ∀ error, w.finish.1 ≠ .error (.nesting error)) :
    ∃ v : Value, v.events = es ∧ v.encode = .ok w.sink.accepted := by
  obtain ⟨n, hn, haccept⟩ := h.nesting
  have hcomplete : n.finish = .ok () := by
    cases hresult : n.finish with
    | ok => rfl
    | error error =>
        refine absurd ?_ (hfinish error)
        simp [finish, hn, hresult]
  obtain ⟨v, rfl⟩ := Nesting.exists_events_eq_of_finish haccept hcomplete
  exact ⟨v, rfl, v.encode_eq.trans (congrArg _ h.accepted.symm)⟩

/-- Whatever calls are made on a checked writer, the bytes taken at any moment
are the beginning of the encoding of a value; and if the stream may end, they
are the encoding of the only value with the events that were sent. -/
theorem checked_stream_wellFormed
    {responses : List Response} {flushes : List (Option Fault)} {calls : List Call}
    {exchanges : List Exchange} {w : Writer}
    (hclean : (checked ⟨responses, flushes, []⟩).FailsCleanly calls)
    (hserve : (checked ⟨responses, flushes, []⟩).serve calls = (exchanges, w)) :
    (∃ (v : Value) (bytes : List UInt8), v.encode = .ok bytes ∧
      ∀ moment, moment <+: w.sink.log.reverse → moment.flatMap SinkCall.taken <+: bytes) ∧
    ((∀ error, w.finish.1 ≠ .error (.nesting error)) →
      ∃ v : Value, (∀ v' : Value, v'.events = sentEvents exchanges ↔ v' = v) ∧
        v.encode = .ok w.sink.accepted) := by
  have h := (inStep_checked responses flushes).serve hclean
  rw [hserve, List.nil_append] at h
  constructor
  · obtain ⟨v, bytes, hencode, hbegins⟩ := h.exists_encode_prefix
    refine ⟨v, bytes, hencode, ?_⟩
    intro moment hmoment
    exact (hmoment.flatMap SinkCall.taken).trans hbegins
  · intro hfinish
    obtain ⟨v, hevents, hencode⟩ := h.exists_encode_eq hfinish
    refine ⟨v, ?_, hencode⟩
    intro v'
    constructor
    · intro hv'
      exact Value.events_injective (hv'.trans hevents.symm)
    · rintro rfl
      exact hevents

/-- The second of these calls fails without a trace and the third is refused;
when the second is made again, the bytes become those of a value. -/
theorem checked_stream_wellFormed_retry :
    let w := checked ⟨[.takeAll, .fail ⟨.other "BrokenPipe", "gone"⟩, .takeAtMost 1], [], []⟩
    let calls : List Call := [.event (.start .array), .event (.int 7), .event (.member "a"),
      .flush, .event (.int 7), .event (.finish .array)]
    w.FailsCleanly calls ∧ sentEvents (w.serve calls).1 = [.start .array, .int 7, .finish .array] ∧
      ∃ v : Value, (∀ v' : Value, v'.events = sentEvents (w.serve calls).1 ↔ v' = v) ∧
        v.encode = .ok [0x5B, 0x6C, 7, 0, 0, 0, 0x5D] := by
  intro w calls
  have hclean : w.FailsCleanly calls := by
    refine ⟨?_, fun _ _ => rfl, ?_, ?_, ?_, ?_, trivial⟩
    all_goals
      intro fault h
      cases h
  refine ⟨hclean, rfl, (checked_stream_wellFormed hclean rfl).2 ?_⟩
  intro error h
  cases h

end Writer

end EcmaTree
