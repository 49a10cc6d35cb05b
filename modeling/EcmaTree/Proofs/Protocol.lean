import EcmaTree.Proofs.Interruption

/-!
# Whole values among other events

Wherever a scalar is in place, a value, a document or a syntax tree is in place
too: its events are all accepted, and they lead where the scalar leads.  Where a
scalar is out of place, the first event is refused for the same reason, and no
other event is tried.  On a checked writer this means that writing one of them
is refused at once or not at all.  A fresh checked writer never refuses, and its
stream is complete once all events are sent.
-/

namespace EcmaTree

/-! ## The nesting check as a consumer -/

namespace Nesting

def check (n : Nesting) (e : Event) : Except NestingError Unit × Nesting :=
  n.accept e.outline

theorem feed_check (n : Nesting) (es : List Event) :
    Event.feed check es n = n.acceptAll (es.map Event.outline) := by
  induction es generalizing n with
  | nil => rfl
  | cons e es ih =>
      rw [Event.feed, List.map_cons, acceptAll, check]
      obtain ⟨_ | _, m⟩ := n.accept e.outline
      · rfl
      · exact ih m

end Nesting

/-! ## The first event -/

variable {ν : Type} [JsonNumber ν]

/-- A value begins with a scalar or with the start of a container. -/
theorem Value.exists_events_eq_cons (v : Value) :
    ∃ e es, v.events = e :: es ∧ (e.outline = .scalar ∨ ∃ c, e.outline = .start c) := by
  cases v with
  | null | bool | int | float | text => exact ⟨_, _, rfl, .inl rfl⟩
  | array items => exact ⟨_, _, rfl, .inr ⟨.array, rfl⟩⟩
  | object members => exact ⟨_, _, rfl, .inr ⟨.object, rfl⟩⟩

/-- Where a scalar is refused, the first event is refused for the same reason. -/
theorem Writable.exists_first_refused
    (x : Writable ν) {n : Nesting} {error : NestingError} (h : n.scalar.1 = .error error) :
    ∃ e es, x.events = e :: es ∧ n.accept e.outline = (.error error, n) := by
  have hrefused : n.accept .scalar = (.error error, n) := Nesting.accept_of_fst_eq_error h
  rw [← x.events_toValue]
  obtain ⟨e, es, hevents, houtline⟩ := x.toValue.exists_events_eq_cons
  refine ⟨e, es, hevents, ?_⟩
  obtain hscalar | ⟨c, hstart⟩ := houtline
  · rw [hscalar]
    exact hrefused
  · rw [hstart]
    exact Nesting.enterValueThen_eq_error_iff.mpr
      (Nesting.enterValueThen_eq_error_iff.mp hrefused)

/-! ## Checked writers -/

namespace Writer

/-- The nesting follows the events that are sent. -/
theorem acceptAll_of_writeEvents_ok
    {w w' : Writer} {n : Nesting} {es : List Event}
    (hn : w.nesting = some n) (h : w.writeEvents es = (.ok (), w')) :
    ∃ n', w'.nesting = some n' ∧ n.acceptAll (es.map Event.outline) = (.ok (), n') := by
  induction es generalizing w n with
  | nil =>
      cases h
      exact ⟨n, hn, rfl⟩
  | cons e es ih =>
      rw [writeEvents, Event.feed] at h
      split at h
      next w₁ hwrite =>
        have hanswer := answers_write hn e
        rw [hwrite] at hanswer
        cases hanswer with
        | sent haccept =>
            obtain ⟨n', hn', hrest⟩ := ih rfl h
            exact ⟨n', hn', Nesting.acceptAll_cons_eq_ok_iff.mpr ⟨_, haccept, hrest⟩⟩
      · cases h

theorem emit_of_scalar_refused
    {w : Writer} {n : Nesting} {error : NestingError} (hn : w.nesting = some n)
    (h : n.scalar.1 = .error error) (x : Writable ν) :
    w.emit x = (.error (.nesting error), w) := by
  obtain ⟨e, es, hevents, hrefused⟩ := x.exists_first_refused h
  rw [emit_eq, hevents, writeEvents, Event.feed, write_of_refused hn hrefused]

theorem allows_events_of_scalar
    {w : Writer} {n n' : Nesting} (hn : w.nesting = some n) (h : n.scalar = (.ok (), n'))
    (x : Writable ν) :
    w.Allows x.events := by
  intro m hm
  cases hn.symm.trans hm
  exact ⟨n', (x.acceptAll_events n).trans h⟩

theorem emit_ne_nesting_error
    {w : Writer} {x : Writable ν} (h : w.Allows x.events) (error : NestingError) :
    (w.emit x).1 ≠ .error (.nesting error) := by
  intro hrefused
  obtain ⟨fault, hfault, -⟩ := exists_interrupted_of_emit_error h (Prod.ext hrefused rfl)
  cases hfault

theorem nesting_of_emit_ok
    {w : Writer} {n n' : Nesting} {x : Writable ν} (hn : w.nesting = some n)
    (h : n.scalar = (.ok (), n')) (hok : (w.emit x).1 = .ok ()) :
    (w.emit x).2.nesting = some n' := by
  have hemit : w.writeEvents x.events = (.ok (), (w.emit x).2) := by
    rw [← emit_eq]
    exact Prod.ext hok rfl
  obtain ⟨m, hm, haccept⟩ := acceptAll_of_writeEvents_ok hn hemit
  rw [x.acceptAll_events, h] at haccept
  cases haccept
  exact hm

theorem put_ne_nesting_error
    {w : Writer} {x : Writable ν} (h : w.Allows x.events) (error : NestingError) :
    (w.put x).1 ≠ .error (.nesting error) := by
  obtain ⟨answer, w', hemit⟩ : ∃ answer w', w.emit x = (answer, w') := ⟨_, _, rfl⟩
  cases answer with
  | ok =>
      intro hrefused
      obtain ⟨n, fault, -, hfault, -⟩ := ((put_of_emit_ok hemit).2.2 _).mp hrefused
      cases hfault
  | error reported =>
      have hne := emit_ne_nesting_error h error
      rw [hemit] at hne
      rw [put_of_emit_error hemit]
      exact hne

/-- A sink without faults takes all events that are in place. -/
theorem emit_ok_of_harmless
    {w : Writer} {x : Writable ν} (h : w.Allows x.events)
    (hsink : ∀ response ∈ w.sink.responses, response.Harmless) :
    (w.emit x).1 = .ok () := by
  obtain ⟨answer, w', hemit⟩ : ∃ answer w', w.emit x = (answer, w') := ⟨_, _, rfl⟩
  cases answer with
  | ok => rw [hemit]
  | error error =>
      obtain ⟨fault, -, hinterrupted⟩ := exists_interrupted_of_emit_error h hemit
      obtain ⟨earlier, last, hresponses, -, hlast⟩ := hinterrupted.responses
      have hmem : last ∈ w.sink.responses := by
        rw [hresponses]
        exact List.mem_append_right _ List.mem_cons_self
      exact absurd hlast (hsink last hmem fault)

end Writer

/-! ## Every context -/

/-- In every state of the nesting check a value, a document or a tree counts as
one scalar: if the scalar is accepted, all events are, and they lead to the same
state; if it is refused, the first event is refused with the same error, which
is the only call, and the state stays.  A checked writer treats it alike, and a
fresh one never refuses it and completes its stream. -/
theorem Writable.counts_as_scalar (x : Writable ν) :
    (∀ n n' : Nesting, n.scalar = (.ok (), n') →
      x.drive (Event.receiver Nesting.check) n = (.ok (), n')) ∧
    (∀ (n : Nesting) (error : NestingError), n.scalar.1 = .error error →
      ∃ e, x.events.head? = some e ∧
        x.drive (Event.receiver (Event.logged Nesting.check)) (n, []) =
          (.error error, n, [(e, .error error)])) ∧
    (∀ (w : Writer) (n : Nesting), w.nesting = some n →
      (∀ error, n.scalar.1 = .error error → w.emit x = (.error (.nesting error), w)) ∧
      ∀ n', n.scalar = (.ok (), n') →
        (∀ error, (w.emit x).1 ≠ .error (.nesting error)) ∧
        ((w.emit x).1 = .ok () → (w.emit x).2.nesting = some n')) ∧
    ∀ sink : Sink,
      (∀ error, ((Writer.checked sink).put x).1 ≠ .error (.nesting error)) ∧
      ((∀ response ∈ sink.responses, response.Harmless) →
        ((Writer.checked sink).emit x).1 = .ok ()) ∧
      (((Writer.checked sink).emit x).1 = .ok () →
        ∃ n, ((Writer.checked sink).put x).2.nesting = some n ∧ n.isComplete = true) := by
  refine ⟨?_, ?_, ?_, ?_⟩
  · intro n n' h
    rw [x.drive_receiver, Nesting.feed_check, x.acceptAll_events, h]
  · intro n error h
    obtain ⟨e, es, hevents, hrefused⟩ := x.exists_first_refused h
    refine ⟨e, by rw [hevents, List.head?_cons], ?_⟩
    rw [x.drive_receiver, hevents, Event.feed, Event.logged, Nesting.check, hrefused]
  · intro w n hn
    refine ⟨fun error h => Writer.emit_of_scalar_refused hn h x, ?_⟩
    intro n' h
    exact ⟨Writer.emit_ne_nesting_error (Writer.allows_events_of_scalar hn h x),
      Writer.nesting_of_emit_ok hn h⟩
  · intro sink
    have hallows : (Writer.checked sink).Allows x.events :=
      Writer.allows_events_of_scalar (n := {}) rfl rfl x
    refine ⟨Writer.put_ne_nesting_error hallows, Writer.emit_ok_of_harmless hallows, ?_⟩
    intro hok
    have hnesting := Writer.nesting_of_emit_ok (n := {}) rfl rfl hok
    obtain ⟨-, hput, -⟩ := Writer.put_of_emit_ok (Prod.ext hok rfl)
    exact ⟨_, hput.trans hnesting, rfl⟩

/-- A tree as the value of a member, and the same tree where a name must come. -/
theorem Writable.counts_as_scalar_member :
    let x : Writable Numeral := .node ⟨(.mk .nil : Node .emptyStatement)⟩
    x.drive (Event.receiver Nesting.check) ⟨[.object true, .array], false⟩ =
        (.ok (), ⟨[.object false, .array], false⟩) ∧
      (∃ e, x.events.head? = some e ∧
        x.drive (Event.receiver (Event.logged Nesting.check))
            (⟨[.object false, .array], false⟩, []) =
          (.error .missingMember, ⟨[.object false, .array], false⟩,
            [(e, .error .missingMember)])) ∧
      ((Writer.checked ⟨[.takeAtMost 1], [some ⟨.other "Other", "busy"⟩], []⟩).emit x).1 =
        .ok () := by
  intro x
  obtain ⟨haccepted, hrefused, -, hfresh⟩ := x.counts_as_scalar
  refine ⟨haccepted _ _ rfl, hrefused _ _ rfl, (hfresh _).2.1 ?_⟩
  exact List.forall_mem_singleton.mpr (Response.Continues.harmless Nat.one_ne_zero)

end EcmaTree
