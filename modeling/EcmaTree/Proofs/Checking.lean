import EcmaTree.Proofs.Streams

/-!
# What checking changes

A checked writer differs from one that trusts its caller in the calls that it
refuses, and in nothing else.  A refused call leaves the writer as it was; any
other call is answered as if nothing were checked, also when the sink fails and
the nesting is taken back.  So a trusting writer that is given only the calls
that were not refused goes through the same answers, sinks and scratch buffers.
A well-formed sequence is not refused as long as the sink takes its events.
-/

namespace EcmaTree

def Call.event? : Call → Option Event
  | .event e => some e
  | .flush => none

/-- The answer says that an event is out of place. -/
def isRefusal : Except WriteError Unit → Bool
  | .error (.nesting _) => true
  | _ => false

@[simp] theorem isRefusal_mapError_sink (result : Except Fault Unit) :
    isRefusal (result.mapError .sink) = false := by
  cases result <;> rfl

namespace Writer

/-- The writer without its checks. -/
def trusting (w : Writer) : Writer :=
  { w with nesting := none }

/-! ## One call -/

theorem write_trusting (w : Writer) (e : Event) :
    w.trusting.write e =
      ((w.sink.writeAll e.encoding).1.mapError .sink,
        ⟨(w.sink.writeAll e.encoding).2, w.scratch.fill e, none⟩) :=
  w.trusting.transmit_eq e

/-- An event is refused without any change, or treated as if nothing were checked. -/
theorem write_refused_or_trusting (w : Writer) (e : Event) :
    (isRefusal (w.write e).1 = true ∧ (w.write e).2 = w) ∨
      (isRefusal (w.write e).1 = false ∧
        w.trusting.write e = ((w.write e).1, (w.write e).2.trusting)) := by
  cases hn : w.nesting with
  | none =>
      have hsame : w.trusting = w := by
        rw [trusting, ← hn]
      have hwrite := w.write_trusting e
      rw [hsame] at hwrite ⊢
      rw [hwrite]
      exact .inr ⟨isRefusal_mapError_sink _, rfl⟩
  | some n =>
      rw [write_trusting]
      have hanswer := answers_write hn e
      generalize w.write e = answer at hanswer
      obtain ⟨result, w'⟩ := answer
      cases hanswer with
      | refused => exact .inl ⟨rfl, rfl⟩
      | sent _ hsink =>
          rw [hsink]
          exact .inr ⟨rfl, rfl⟩
      | failed _ hsink =>
          rw [hsink]
          exact .inr ⟨rfl, rfl⟩

theorem call_refused_or_trusting (w : Writer) (c : Call) :
    (isRefusal (w.call c).1 = true ∧ (w.call c).2 = w) ∨
      (isRefusal (w.call c).1 = false ∧
        w.trusting.call c = ((w.call c).1, (w.call c).2.trusting)) := by
  cases c with
  | event e => exact w.write_refused_or_trusting e
  | flush => exact .inr ⟨isRefusal_mapError_sink _, rfl⟩

/-- An event that is in place is not refused, and it is followed once it is sent. -/
theorem write_of_accept
    {w : Writer} {n n' : Nesting} {e : Event}
    (hn : w.nesting = some n) (haccept : n.accept e.outline = (.ok (), n')) :
    w.trusting.write e = ((w.write e).1, (w.write e).2.trusting) ∧
      ((w.write e).1 = .ok () → (w.write e).2.nesting = some n') := by
  have hanswer := answers_write hn e
  have hstep := w.write_refused_or_trusting e
  generalize w.write e = answer at hanswer hstep
  obtain ⟨result, w'⟩ := answer
  cases hanswer with
  | refused hrefused =>
      rw [haccept] at hrefused
      cases hrefused
  | sent hsent =>
      rw [haccept] at hsent
      cases hsent
      exact ⟨(hstep.resolve_left (by simp [isRefusal])).2, fun _ => rfl⟩
  | failed =>
      refine ⟨(hstep.resolve_left (by simp [isRefusal])).2, ?_⟩
      intro hok
      cases hok

/-! ## Any number of calls -/

/-- A call on a writer, the answer to it and the writer after it. -/
structure Entry where
  call : Call
  answer : Except WriteError Unit
  writer : Writer

def Entry.trusting (entry : Entry) : Entry :=
  { entry with writer := entry.writer.trusting }

/-- What happens when calls are made one after another, also after one that fails. -/
def transcript (w : Writer) : List Call → List Entry
  | [] => []
  | c :: calls => ⟨c, (w.call c).1, (w.call c).2⟩ :: (w.call c).2.transcript calls

/-- The entries of the calls that are not refused. -/
def unrefused (w : Writer) (calls : List Call) : List Entry :=
  (w.transcript calls).filter fun entry => !isRefusal entry.answer

theorem unrefused_cons (w : Writer) (c : Call) (calls : List Call) :
    w.unrefused (c :: calls) =
      if isRefusal (w.call c).1 then (w.call c).2.unrefused calls
      else ⟨c, (w.call c).1, (w.call c).2⟩ :: (w.call c).2.unrefused calls := by
  rw [unrefused, transcript, List.filter_cons]
  cases isRefusal (w.call c).1 <;> rfl

theorem serve_cons (w : Writer) (c : Call) (calls : List Call) :
    w.serve (c :: calls) =
      ((c, (w.call c).1) :: ((w.call c).2.serve calls).1, ((w.call c).2.serve calls).2) := rfl

/-- A writer that trusts its caller repeats what was not refused, and ends up
where the calls led, those that were refused included. -/
theorem transcript_unrefused (w : Writer) (calls : List Call) :
    w.trusting.transcript ((w.unrefused calls).map Entry.call) =
        (w.unrefused calls).map Entry.trusting ∧
      (w.trusting.serve ((w.unrefused calls).map Entry.call)).2 = (w.serve calls).2.trusting := by
  induction calls generalizing w with
  | nil => exact ⟨rfl, rfl⟩
  | cons c calls ih =>
      have hrest := ih (w.call c).2
      rw [unrefused_cons, serve_cons]
      obtain ⟨hrefused, hw⟩ | ⟨hkept, hcall⟩ := w.call_refused_or_trusting c
      · rw [if_pos hrefused]
        rw [hw] at hrest ⊢
        exact hrest
      · rw [hkept, if_neg Bool.false_ne_true, List.map_cons, List.map_cons, transcript,
          serve_cons, hcall, hrest.1]
        exact ⟨rfl, hrest.2⟩

/-! ## Well-formed sequences -/

/-- The two writers do the same up to the first event that the sink fails on,
and in the call in which it fails. -/
theorem take_transcript_of_acceptAll
    {w : Writer} {n n' : Nesting} {calls : List Call} {k : Nat} (hn : w.nesting = some n)
    (haccept : n.acceptAll ((calls.filterMap Call.event?).map Event.outline) = (.ok (), n'))
    (hsent : ∀ entry ∈ (w.trusting.transcript calls).take k,
      entry.call = .flush ∨ entry.answer = .ok ()) :
    (w.trusting.transcript calls).take (k + 1) =
      ((w.transcript calls).take (k + 1)).map Entry.trusting := by
  induction calls generalizing w n k with
  | nil => rfl
  | cons c calls ih =>
      -- The first call does the same, and the rest is accepted where it leads.
      obtain ⟨hcall, hnext⟩ :
          w.trusting.call c = ((w.call c).1, (w.call c).2.trusting) ∧
            (c = .flush ∨ (w.call c).1 = .ok () → ∃ m, (w.call c).2.nesting = some m ∧
              m.acceptAll ((calls.filterMap Call.event?).map Event.outline) = (.ok (), n')) := by
        cases c with
        | flush => exact ⟨rfl, fun _ => ⟨n, hn, haccept⟩⟩
        | event e =>
            obtain ⟨m, hevent, hrest⟩ := Nesting.acceptAll_cons_eq_ok_iff.mp haccept
            obtain ⟨hwrite, hfollowed⟩ := write_of_accept hn hevent
            refine ⟨hwrite, ?_⟩
            rintro (hflush | hok)
            · cases hflush
            · exact ⟨m, hfollowed hok, hrest⟩
      rw [transcript, hcall] at hsent ⊢
      rw [transcript, List.take_succ_cons, List.take_succ_cons, List.map_cons]
      refine congrArg (List.cons _) ?_
      cases k with
      | zero => rfl
      | succ k =>
          rw [List.take_succ_cons, List.forall_mem_cons] at hsent
          obtain ⟨m, hm, hrest⟩ := hnext hsent.1
          exact ih hm hrest hsent.2

theorem writeEvents_trusting_of_acceptAll
    {w : Writer} {n n' : Nesting} {es : List Event} (hn : w.nesting = some n)
    (haccept : n.acceptAll (es.map Event.outline) = (.ok (), n')) :
    w.trusting.writeEvents es = ((w.writeEvents es).1, (w.writeEvents es).2.trusting) := by
  induction es generalizing w n with
  | nil => rfl
  | cons e es ih =>
      obtain ⟨m, hevent, hrest⟩ := Nesting.acceptAll_cons_eq_ok_iff.mp haccept
      obtain ⟨hwrite, hfollowed⟩ := write_of_accept hn hevent
      rw [writeEvents, writeEvents, Event.feed, Event.feed, hwrite]
      generalize w.write e = answer at hfollowed
      obtain ⟨result, w'⟩ := answer
      cases result with
      | error error => rfl
      | ok => exact ih (hfollowed rfl) hrest

/-- Over any sink and for any calls, a writer that trusts its caller and is
given the calls that a checked writer does not refuse has call by call the same
answers, sink and scratch buffer, and ends with those of the checked writer.  If
the events are well-formed, the two agree on all calls until the sink fails on
an event; and writing a well-formed sequence, which ends where the sink fails,
is the same for both. -/
theorem unchecked_agrees_with_checked (sink : Sink) (calls : List Call) :
    ((unchecked sink).transcript (((checked sink).unrefused calls).map Entry.call) =
        ((checked sink).unrefused calls).map Entry.trusting ∧
      ((unchecked sink).serve (((checked sink).unrefused calls).map Entry.call)).2 =
        ((checked sink).serve calls).2.trusting) ∧
    (∀ (n : Nesting) (k : Nat),
      Nesting.acceptAll {} ((calls.filterMap Call.event?).map Event.outline) = (.ok (), n) →
      (∀ entry ∈ ((unchecked sink).transcript calls).take k,
        entry.call = .flush ∨ entry.answer = .ok ()) →
      ((unchecked sink).transcript calls).take (k + 1) =
        (((checked sink).transcript calls).take (k + 1)).map Entry.trusting) ∧
    ∀ (es : List Event) (n : Nesting),
      Nesting.acceptAll {} (es.map Event.outline) = (.ok (), n) →
      (unchecked sink).writeEvents es =
        (((checked sink).writeEvents es).1, ((checked sink).writeEvents es).2.trusting) := by
  refine ⟨(checked sink).transcript_unrefused calls, ?_, ?_⟩
  · intro n k haccept hsent
    exact take_transcript_of_acceptAll (w := checked sink) rfl haccept hsent
  · intro es n haccept
    exact writeEvents_trusting_of_acceptAll (w := checked sink) rfl haccept

/-- The flush fails, which changes nothing, and then the sink fails on the start
of an object.  The checked writer is still in the array, so that it refuses the
end of the object, which the other one sends. -/
theorem unchecked_agrees_with_checked_failing :
    let sink : Sink :=
      ⟨[.takeAll, .fail ⟨.other "BrokenPipe", "gone"⟩], [some ⟨.other "Other", "busy"⟩], []⟩
    let calls : List Call := [.event (.start .array), .flush, .event (.start .object),
      .event (.finish .object), .event (.finish .array)]
    ((checked sink).unrefused calls).map Entry.call =
        [.event (.start .array), .flush, .event (.start .object), .event (.finish .array)] ∧
      (unchecked sink).transcript
          [.event (.start .array), .flush, .event (.start .object), .event (.finish .array)] =
        ((checked sink).unrefused calls).map Entry.trusting ∧
      ((unchecked sink).transcript calls).take 3 =
        (((checked sink).transcript calls).take 3).map Entry.trusting ∧
      ((checked sink).serve calls).2.sink.accepted = [0x5B, 0x5D] ∧
      ((unchecked sink).serve calls).2.sink.accepted = [0x5B, 0x7D, 0x5D] := by
  intro sink calls
  obtain ⟨⟨hunrefused, -⟩, hwellFormed, -⟩ := unchecked_agrees_with_checked sink calls
  refine ⟨rfl, hunrefused, hwellFormed _ 2 rfl ?_, rfl, rfl⟩
  exact List.forall_mem_cons.mpr ⟨.inr rfl, List.forall_mem_cons.mpr
    ⟨.inl rfl, List.forall_mem_nil _⟩⟩

end Writer

end EcmaTree
