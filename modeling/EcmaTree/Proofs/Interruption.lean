import EcmaTree.Proofs.Atomicity
import EcmaTree.Proofs.Checking
import EcmaTree.Proofs.Driving
import EcmaTree.Proofs.Lossless

/-!
# Writing that breaks off

Writing a value, a document or a syntax tree may break off at any offer of
bytes, since the sink may fail there.  The writer then stops within the event
that it was about to send, and nothing follows: no later event, and no end of a
container that is still open.  The sink has taken a beginning of the bytes, and
all of them only if writing has succeeded.  The fault that is reported is the
first one that the sink has shown.
-/

namespace EcmaTree

/-! ## Runs that stop -/

/-- A consumer that fails has taken the events up to the one that it fails on. -/
theorem Event.feed_of_error
    {σ ε : Type} {consume : σ → Event → Except ε Unit × σ}
    {es : List Event} {s s' : σ} {error : ε}
    (h : feed consume es s = (.error error, s')) :
    ∃ sent e unsent s₁, es = sent ++ e :: unsent ∧ feed consume sent s = (.ok (), s₁) ∧
      consume s₁ e = (.error error, s') := by
  induction es generalizing s with
  | nil => cases h
  | cons e es ih =>
      rw [feed] at h
      split at h
      next s₁ hconsume =>
        obtain ⟨sent, failed, unsent, s₂, rfl, hsent, hfailed⟩ := ih h
        refine ⟨e :: sent, failed, unsent, s₂, rfl, ?_, hfailed⟩
        rw [feed, hconsume]
        exact hsent
      next hconsume =>
        cases h
        exact ⟨[], e, es, s, rfl, rfl, hconsume⟩

/-! ## Sinks -/

/-- A response that no fault is reported for. -/
def Response.Harmless (response : Response) : Prop :=
  ∀ fault, ¬response.Reports fault

theorem Response.harmless_takeAll : takeAll.Harmless := by
  intro fault hreports
  cases hreports

theorem Response.Continues.harmless
    {response : Response} (h : response.Continues) :
    response.Harmless := by
  intro fault hreports
  cases hreports with
  | failure hkind => exact hkind h
  | nothing => exact h rfl

namespace Sink

theorem deliver_flushes
    (flushes : List (Option Fault)) (bytes : List UInt8) (log : List SinkCall)
    (responses : List Response) :
    (deliver flushes bytes log responses).2.flushes = flushes := by
  induction responses generalizing bytes log with
  | nil => rfl
  | cons response responses ih =>
      cases response with
      | takeAll => rfl
      | takeAtMost n =>
          simp only [deliver]
          split
          · rfl
          · split
            · rfl
            · exact ih _ _
      | fail fault =>
          simp only [deliver]
          split
          · exact ih _ _
          · rfl

@[simp] theorem writeAll_flushes (s : Sink) (bytes : List UInt8) :
    (s.writeAll bytes).2.flushes = s.flushes := by
  rw [writeAll]
  split
  · rfl
  · exact deliver_flushes _ _ _ _

/-- A write that succeeds meets no response that a fault would be reported for. -/
theorem deliver_responses_of_ok
    {flushes : List (Option Fault)} {bytes : List UInt8} {log : List SinkCall}
    {responses : List Response} {s : Sink}
    (h : deliver flushes bytes log responses = (.ok (), s)) :
    ∃ used, responses = used ++ s.responses ∧ ∀ response ∈ used, response.Harmless := by
  induction responses generalizing bytes log with
  | nil =>
      cases h
      exact ⟨[], rfl, List.forall_mem_nil _⟩
  | cons response responses ih =>
      -- Either the write ends with the first response, or it goes on after it.
      have hstop : response.Harmless → s.responses = responses →
          ∃ used, response :: responses = used ++ s.responses ∧ ∀ r ∈ used, r.Harmless := by
        rintro hharmless rfl
        exact ⟨[response], rfl, List.forall_mem_singleton.mpr hharmless⟩
      have hgoOn : response.Harmless → ∀ {bytes' log'},
          deliver flushes bytes' log' responses = (.ok (), s) →
          ∃ used, response :: responses = used ++ s.responses ∧ ∀ r ∈ used, r.Harmless := by
        intro hharmless bytes' log' hrest
        obtain ⟨used, hresponses, hused⟩ := ih hrest
        refine ⟨response :: used, ?_, List.forall_mem_cons.mpr ⟨hharmless, hused⟩⟩
        rw [hresponses, List.cons_append]
      cases response with
      | takeAll =>
          cases h
          exact hstop Response.harmless_takeAll rfl
      | takeAtMost n =>
          simp only [deliver] at h
          split at h
          · cases h
          next hzero =>
            have hcontinues : (Response.takeAtMost n).Continues := hzero
            split at h
            · cases h
              exact hstop hcontinues.harmless rfl
            · exact hgoOn hcontinues.harmless h
      | fail fault =>
          simp only [deliver] at h
          split at h
          next hkind =>
            have hcontinues : (Response.fail fault).Continues := hkind
            exact hgoOn hcontinues.harmless h
          · cases h

theorem writeAll_responses_of_ok
    {s s' : Sink} {bytes : List UInt8} (h : s.writeAll bytes = (.ok (), s')) :
    ∃ used, s.responses = used ++ s'.responses ∧ ∀ response ∈ used, response.Harmless := by
  rw [writeAll] at h
  split at h
  · cases h
    exact ⟨[], rfl, List.forall_mem_nil _⟩
  · exact deliver_responses_of_ok h

theorem flush_eq_error_iff {s : Sink} {fault : Fault} :
    s.flush.1 = .error fault ↔ s.flushes.head? = some (some fault) := by
  rw [flush]
  cases s.flushes with
  | nil => simp
  | cons answer flushes => cases answer <;> simp

end Sink

/-! ## Writers -/

theorem mapError_sink_inj {a b : Except Fault Unit} :
    a.mapError WriteError.sink = b.mapError .sink ↔ a = b := by
  cases a <;> cases b <;> simp [Except.mapError]

namespace Writer

/-- Unless it refuses an event, a writer does with it what the sink does with the
encoding. -/
theorem writeAll_of_write
    {w w' : Writer} {e : Event} (answer : Except Fault Unit)
    (h : w.write e = (answer.mapError .sink, w')) :
    w.sink.writeAll e.encoding = (answer, w'.sink) := by
  obtain ⟨hrefused, -⟩ | ⟨-, hwrite⟩ := w.write_refused_or_trusting e
  · rw [h, isRefusal_mapError_sink] at hrefused
    cases hrefused
  · rw [write_trusting, h] at hwrite
    obtain ⟨hanswer, hwriter⟩ := Prod.mk.inj hwrite
    have hsink : (w.sink.writeAll e.encoding).2 = w'.sink := congrArg sink hwriter
    rw [← hsink]
    exact Prod.ext (mapError_sink_inj.mp hanswer) rfl

theorem write_sink_of_ok
    {w w' : Writer} {e : Event} (h : w.write e = (.ok (), w')) :
    w.sink.writeAll e.encoding = (.ok (), w'.sink) :=
  writeAll_of_write (.ok ()) h

theorem write_sink_of_error
    {w w' : Writer} {e : Event} {fault : Fault} (h : w.write e = (.error (.sink fault), w')) :
    w.sink.writeAll e.encoding = (.error fault, w'.sink) :=
  writeAll_of_write (.error fault) h

theorem writeEvents_sink_of_ok
    {w w' : Writer} {es : List Event} (h : w.writeEvents es = (.ok (), w')) :
    w'.sink.flushes = w.sink.flushes ∧
      ∃ used, w.sink.responses = used ++ w'.sink.responses ∧
        ∀ response ∈ used, response.Harmless := by
  induction es generalizing w with
  | nil =>
      cases h
      exact ⟨rfl, [], rfl, List.forall_mem_nil _⟩
  | cons e es ih =>
      rw [writeEvents, Event.feed] at h
      split at h
      next w₁ hwrite =>
        have hsink := write_sink_of_ok hwrite
        obtain ⟨used, hused, hharmless⟩ := Sink.writeAll_responses_of_ok hsink
        obtain ⟨hflushes, used', hused', hharmless'⟩ := ih h
        refine ⟨?_, used ++ used', ?_, ?_⟩
        · rw [hflushes, ← w.sink.writeAll_flushes e.encoding, hsink]
        · rw [hused, hused', List.append_assoc]
        · intro response hresponse
          exact (List.mem_append.mp hresponse).elim (hharmless response) (hharmless' response)
      · cases h

/-- The events are in place one after another, or the writer does not check. -/
def Allows (w : Writer) (es : List Event) : Prop :=
  ∀ n, w.nesting = some n → ∃ n', n.acceptAll (es.map Event.outline) = (.ok (), n')

theorem Allows.write
    {w : Writer} {e : Event} {es : List Event} (h : w.Allows (e :: es)) :
    isRefusal (w.write e).1 = false ∧ ((w.write e).1 = .ok () → (w.write e).2.Allows es) := by
  cases hn : w.nesting with
  | none =>
      rw [Writer.write, hn]
      simp only [transmit_eq]
      refine ⟨isRefusal_mapError_sink _, ?_⟩
      intro _ n hsome
      rw [hn] at hsome
      cases hsome
  | some n =>
      obtain ⟨n', haccept⟩ := h n hn
      obtain ⟨m, hevent, hrest⟩ := Nesting.acceptAll_cons_eq_ok_iff.mp haccept
      obtain ⟨hwrite, hfollowed⟩ := write_of_accept hn hevent
      rw [write_trusting] at hwrite
      constructor
      · rw [← (Prod.mk.inj hwrite).1]
        exact isRefusal_mapError_sink _
      · intro hok k hk
        rw [hfollowed hok] at hk
        cases hk
        exact ⟨n', hrest⟩

theorem Allows.writeEvents
    {w w' : Writer} {sent rest : List Event} (h : w.Allows (sent ++ rest))
    (hsent : w.writeEvents sent = (.ok (), w')) :
    w'.Allows rest := by
  induction sent generalizing w with
  | nil =>
      cases hsent
      exact h
  | cons e sent ih =>
      rw [Writer.writeEvents, Event.feed] at hsent
      split at hsent
      next w₁ hwrite =>
        have hnext := (Allows.write h).2
        rw [hwrite] at hnext
        exact ih (hnext rfl) hsent
      · cases hsent

/-- The sink fails on one of the events, after all those before it were sent, and
that leaves the writer as it is. -/
inductive Interrupted (w : Writer) (es : List Event) (fault : Fault) (w' : Writer) : Prop where
  | intro (sent : List Event) (e : Event) (unsent : List Event) (w₁ : Writer)
      (hevents : es = sent ++ e :: unsent) (hsent : w.writeEvents sent = (.ok (), w₁))
      (hfailed : w₁.write e = (.error (.sink fault), w'))

/-- Events that are in place can only fail with the sink. -/
theorem exists_interrupted_of_error
    {w w' : Writer} {es : List Event} {error : WriteError} (hes : w.Allows es)
    (h : w.writeEvents es = (.error error, w')) :
    ∃ fault, error = .sink fault ∧ w.Interrupted es fault w' := by
  obtain ⟨sent, e, unsent, w₁, rfl, hsent, hfailed⟩ := Event.feed_of_error h
  have hunrefused := (Allows.write (hes.writeEvents hsent)).1
  rw [hfailed] at hunrefused
  cases error with
  | nesting error => cases hunrefused
  | sink fault => exact ⟨fault, rfl, sent, e, unsent, w₁, rfl, hsent, hfailed⟩

namespace Interrupted

variable {w w' : Writer} {es : List Event} {fault : Fault}

/-- The sink has taken some of the bytes, but not all. -/
theorem accepted (h : w.Interrupted es fault w') :
    ∃ bytes, bytes <+: es.flatMap Event.encoding ∧ bytes ≠ es.flatMap Event.encoding ∧
      w'.sink.accepted = w.sink.accepted ++ bytes := by
  obtain ⟨sent, e, unsent, w₁, rfl, hsent, hfailed⟩ := h
  obtain ⟨-, part, hpart, hne, haccepted⟩ := Sink.writeAll_of_error (write_sink_of_error hfailed)
  obtain ⟨missing, hmissing⟩ := hpart
  have hall : (sent ++ e :: unsent).flatMap Event.encoding =
      (sent.flatMap Event.encoding ++ part) ++ (missing ++ unsent.flatMap Event.encoding) := by
    rw [List.flatMap_append, List.flatMap_cons, ← hmissing]
    simp only [List.append_assoc]
  refine ⟨sent.flatMap Event.encoding ++ part, ?_, ?_, ?_⟩
  · rw [hall]
    exact List.prefix_append _ _
  · rw [hall]
    intro hequal
    -- What is missing of the event would have to be empty.
    obtain ⟨hnil, -⟩ := List.append_eq_nil_iff.mp (List.self_eq_append_right.mp hequal)
    rw [hnil, List.append_nil] at hmissing
    exact hne hmissing
  · rw [haccepted, writeEvents_accepted_of_ok hsent, List.append_assoc]

/-- The fault is the first one that the sink shows. -/
theorem responses (h : w.Interrupted es fault w') :
    ∃ earlier last, w.sink.responses = earlier ++ last :: w'.sink.responses ∧
      (∀ response ∈ earlier, response.Harmless) ∧ last.Reports fault := by
  obtain ⟨sent, e, unsent, w₁, rfl, hsent, hfailed⟩ := h
  obtain ⟨-, used, hused, hharmless⟩ := writeEvents_sink_of_ok hsent
  obtain ⟨⟨earlier, last, hresponses, hearlier, hlast⟩, -⟩ :=
    Sink.writeAll_of_error (write_sink_of_error hfailed)
  refine ⟨used ++ earlier, last, ?_, ?_, hlast⟩
  · rw [hused, hresponses, List.append_assoc]
  · intro response hresponse
    obtain hmem | hmem := List.mem_append.mp hresponse
    · exact hharmless response hmem
    · exact (hearlier response hmem).harmless

end Interrupted

end Writer

/-! ## Values, documents and trees -/

variable {ν : Type} [JsonNumber ν]

namespace Writable

/-- The value with the same events. -/
def toValue : Writable ν → Value
  | value v => v
  | json j => .ofJson j
  | node n => n.value

theorem events_toValue (x : Writable ν) : x.toValue.events = x.events := by
  cases x with
  | value v => rfl
  | json j => exact Value.events_ofJson j
  | node n => exact n.events_value

/-- The events lead where one scalar leads, and are refused where it is refused. -/
theorem acceptAll_events (x : Writable ν) (n : Nesting) :
    n.acceptAll (x.events.map Event.outline) = n.scalar := by
  rw [← x.events_toValue]
  exact Nesting.acceptAll_skeleton x.toValue n

def encoding (x : Writable ν) : List UInt8 :=
  x.events.flatMap Event.encoding

theorem encode_eq (x : Writable ν) : x.encode = .ok x.encoding := by
  cases x with
  | value v => exact v.encode_eq
  | json j => exact Writer.encodeEvents_eq ((json j).acceptAll_events {}) rfl
  | node n =>
      rw [encoding, events, n.events_encoding]
      exact n.encode_eq

end Writable

namespace Writer

/-- Nothing has been written, and the sink has not been called. -/
structure Fresh (w : Writer) : Prop where
  log_eq : w.sink.log = []
  nesting_eq : ∀ n, w.nesting = some n → n = {}

theorem fresh_checked
    (responses : List Response) (flushes : List (Option Fault)) :
    (checked ⟨responses, flushes, []⟩).Fresh := by
  refine ⟨rfl, ?_⟩
  intro n hn
  exact (Option.some.inj hn).symm

theorem Fresh.accepted_eq {w : Writer} (hw : w.Fresh) : w.sink.accepted = [] := by
  rw [Sink.accepted, hw.log_eq]
  rfl

theorem Fresh.allows {w : Writer} (hw : w.Fresh) (x : Writable ν) : w.Allows x.events := by
  intro n hn
  rw [x.acceptAll_events, hw.nesting_eq n hn]
  exact ⟨_, rfl⟩

theorem exists_interrupted_of_emit_error
    {w w' : Writer} {x : Writable ν} {error : WriteError} (hx : w.Allows x.events)
    (h : w.emit x = (.error error, w')) :
    ∃ fault, error = .sink fault ∧ w.Interrupted x.events fault w' := by
  rw [emit_eq] at h
  exact exists_interrupted_of_error hx h

/-- The sink of a fresh writer has taken a beginning of the bytes, and all of them
only if all events were written. -/
theorem Fresh.emit_accepted {w : Writer} (hw : w.Fresh) (x : Writable ν) :
    (w.emit x).2.sink.accepted <+: x.encoding ∧
      ((w.emit x).2.sink.accepted = x.encoding ↔ (w.emit x).1 = .ok ()) := by
  obtain ⟨answer, w', h⟩ : ∃ answer w', w.emit x = (answer, w') := ⟨_, _, rfl⟩
  rw [h]
  cases answer with
  | ok =>
      rw [emit_eq] at h
      have hall : w'.sink.accepted = x.encoding := by
        rw [writeEvents_accepted_of_ok h, hw.accepted_eq]
        rfl
      rw [hall]
      exact ⟨List.prefix_rfl, iff_of_true rfl rfl⟩
  | error error =>
      obtain ⟨fault, -, hinterrupted⟩ := exists_interrupted_of_emit_error (hw.allows x) h
      obtain ⟨bytes, hbegins, hne, haccepted⟩ := hinterrupted.accepted
      rw [hw.accepted_eq, List.nil_append] at haccepted
      rw [haccepted]
      refine ⟨hbegins, iff_of_false hne ?_⟩
      intro hok
      cases hok

theorem put_of_emit_error
    {w w' : Writer} {x : Writable ν} {error : WriteError} (h : w.emit x = (.error error, w')) :
    w.put x = (.error error, w') := by
  cases x with
  | value v => exact h
  | json j => exact h
  | node n =>
      rw [put, writeNode]
      rw [emit] at h
      rw [h]

/-- Once the events are sent, the one thing that can still happen is that the
flush after a tree fails. -/
theorem put_of_emit_ok
    {w w' : Writer} {x : Writable ν} (h : w.emit x = (.ok (), w')) :
    (w.put x).2.sink.accepted = w'.sink.accepted ∧ (w.put x).2.nesting = w'.nesting ∧
      ∀ error, (w.put x).1 = .error error ↔
        ∃ n fault, x = .node n ∧ error = .sink fault ∧
          w.sink.flushes.head? = some (some fault) := by
  cases x with
  | value v =>
      change w.put (.value v : Writable ν) = _ at h
      rw [h]
      simp
  | json j =>
      change w.put (.json j : Writable ν) = _ at h
      rw [h]
      simp
  | node n =>
      have hput : w.put (.node n : Writable ν) = w'.flush := by
        rw [put, writeNode]
        rw [emit] at h
        rw [h]
      rw [hput]
      refine ⟨w'.sink.flush_accepted, rfl, ?_⟩
      intro error
      rw [← (writeEvents_sink_of_ok h).1]
      simp only [← Sink.flush_eq_error_iff, flush]
      cases w'.sink.flush.1 <;> simp [Except.mapError, eq_comm]

/-- Whatever the sink does, a value, a document or a tree that is written on a
fresh writer reaches the sink up to some point, and as a whole exactly if its
events were all written.  Otherwise writing stops within the event that the sink
fails on, and reports the first fault of the sink.  If the events were all
written, only the flush after a tree can still fail, which takes nothing back. -/
theorem emit_sends_beginning {w : Writer} (hw : w.Fresh) (x : Writable ν) :
    w.emit x = x.drive (Event.receiver write) w ∧
    ∃ bytes, x.encode = .ok bytes ∧
      (w.emit x).2.sink.accepted <+: bytes ∧
      ((w.emit x).2.sink.accepted = bytes ↔ (w.emit x).1 = .ok ()) ∧
      (∀ error w', w.emit x = (.error error, w') →
        w.put x = (.error error, w') ∧
        ∃ fault, error = .sink fault ∧ w.Interrupted x.events fault w' ∧
          ∃ earlier last, w.sink.responses = earlier ++ last :: w'.sink.responses ∧
            (∀ response ∈ earlier, response.Harmless) ∧ last.Reports fault) ∧
      ((w.emit x).1 = .ok () →
        (w.put x).2.sink.accepted = bytes ∧
        ∀ error, (w.put x).1 = .error error ↔
          ∃ n fault, x = .node n ∧ error = .sink fault ∧
            w.sink.flushes.head? = some (some fault)) := by
  obtain ⟨hbegins, hwhole⟩ := hw.emit_accepted x
  refine ⟨?_, x.encoding, x.encode_eq, hbegins, hwhole, ?_, ?_⟩
  · rw [emit_eq, x.drive_receiver, writeEvents]
  · intro error w' h
    obtain ⟨fault, hfault, hinterrupted⟩ := exists_interrupted_of_emit_error (hw.allows x) h
    exact ⟨put_of_emit_error h, fault, hfault, hinterrupted, hinterrupted.responses⟩
  · intro hok
    obtain ⟨haccepted, -, herror⟩ := put_of_emit_ok (Prod.ext hok rfl)
    exact ⟨haccepted.trans (hwhole.mpr hok), herror⟩

/-- The sink breaks within the name of the first member, and no end of the object
follows.  Another sink takes the same tree as a whole and fails to flush it. -/
theorem emit_sends_beginning_cut :
    let x : Writable Numeral := .node ⟨(.mk .nil : Node .emptyStatement)⟩
    let broken := checked ⟨[.takeAll, .takeAtMost 2, .fail ⟨.other "BrokenPipe", "gone"⟩], [], []⟩
    let busy := checked ⟨[.takeAtMost 1], [some ⟨.other "Other", "busy"⟩], []⟩
    (broken.put x).1 = .error (.sink ⟨.other "BrokenPipe", "gone"⟩) ∧
      (broken.put x).2.sink.accepted = [0x7B, 0x53, 0x6C] ∧
      (busy.put x).1 = .error (.sink ⟨.other "Other", "busy"⟩) ∧
      ∃ bytes, x.encode = .ok bytes ∧ (busy.put x).2.sink.accepted = bytes ∧
        (broken.emit x).2.sink.accepted <+: bytes ∧
        (broken.emit x).2.sink.accepted ≠ bytes := by
  intro x broken busy
  obtain ⟨-, bytes, hbytes, hbegins, hwhole, -⟩ :=
    emit_sends_beginning (w := broken) (fresh_checked _ _) x
  obtain ⟨-, bytes', hbytes', -, -, -, hsent⟩ :=
    emit_sends_beginning (w := busy) (fresh_checked _ _) x
  have hsame : bytes' = bytes := Except.ok.inj (hbytes'.symm.trans hbytes)
  refine ⟨rfl, rfl, rfl, bytes, hbytes, hsame ▸ (hsent rfl).1, hbegins, ?_⟩
  intro hequal
  cases hwhole.mp hequal

end Writer

end EcmaTree
