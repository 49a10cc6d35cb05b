import EcmaTree.Proofs.Checking

/-!
# The size of the scratch buffer

A writer lays out every event that it does not refuse, also one that the sink
then fails on.  What its buffer has become is therefore a matter of these events
alone: they have been laid out in it one after another.

The buffer is made larger only for an event that it cannot hold, so that it has
room for the largest one so far and at most `255` bytes more.  The room is made
before any piece of the event is put.
-/

namespace EcmaTree

/-- The length of the longest encoding among events, and `0` if there are none. -/
def Event.largestLength (es : List Event) : Nat :=
  (es.map fun e => e.encoding.length).foldr max 0

theorem Event.largestLength_concat (es : List Event) (e : Event) :
    largestLength (es ++ [e]) = max (largestLength es) e.encoding.length := by
  induction es with
  | nil => simp [largestLength]
  | cons first es ih =>
      simp only [largestLength, List.cons_append, List.map_cons, List.foldr_cons] at ih ⊢
      rw [ih, Nat.max_assoc]

namespace Scratch

/-! ## Laying out an event -/

/-- Pieces are put into a buffer one after another, each of them at a place that
lies within it. -/
inductive Lays : Scratch → List Piece → Scratch → Prop where
  | nil (s : Scratch) : Lays s [] s
  | cons {s s' : Scratch} {p : Piece} {ps : List Piece}
      (hwithin : p.offset + p.bytes.length ≤ s.size) (hrest : Lays (s.put p hwithin) ps s') :
      Lays s (p :: ps) s'

theorem Lays.size_eq
    {s s' : Scratch} {ps : List Piece} (h : Lays s ps s') :
    s'.size = s.size := by
  induction h with
  | nil => rfl
  | cons hwithin _ ih => rw [ih, size_put hwithin]

theorem lays_putAll
    {s : Scratch} {ps : List Piece} (h : ∀ p ∈ ps, p.offset + p.bytes.length ≤ s.size) :
    Lays s ps (s.putAll ps h) := by
  induction ps generalizing s with
  | nil => exact .nil s
  | cons p ps ih => exact .cons (h p List.mem_cons_self) (ih _)

theorem lays_fill (s : Scratch) (e : Event) :
    Lays (s.reserve e.size) e.pieces (s.fill e) :=
  lays_putAll _

theorem size_fill (s : Scratch) (e : Event) :
    (s.fill e).size =
      if s.size < e.encoding.length then max e.encoding.length (s.size + chunk) else s.size := by
  rw [(s.lays_fill e).size_eq, size_reserve, e.length_encoding]

theorem size_le_size_fill (s : Scratch) (e : Event) : e.size ≤ (s.fill e).size := by
  rw [(s.lays_fill e).size_eq]
  exact s.le_size_reserve e.size

/-! ## Laying out events one after another -/

/-- Events leave the size as it is, or add a chunk to it at least. -/
theorem size_foldl_fill_eq_or_le (s : Scratch) (es : List Event) :
    (es.foldl fill s).size = s.size ∨ s.size + chunk ≤ (es.foldl fill s).size := by
  induction es generalizing s with
  | nil => exact .inl rfl
  | cons e es ih =>
      have hfirst := s.size_fill e
      have hrest := ih (s.fill e)
      rw [List.foldl_cons]
      split at hfirst <;> omega

/-- The buffer holds the largest of the events, with less than a chunk to spare. -/
structure Covers (s : Scratch) (es : List Event) : Prop where
  largest_le : Event.largestLength es ≤ s.size
  size_lt : s.size < Event.largestLength es + chunk

theorem Covers.fill
    {s : Scratch} {es : List Event} (h : s.Covers es) (e : Event) :
    (s.fill e).Covers (es ++ [e]) := by
  have hlow := h.largest_le
  have hhigh := h.size_lt
  have hlargest := Event.largestLength_concat es e
  have hsize := s.size_fill e
  by_cases hroom : s.size < e.encoding.length
  · -- The buffer was too small for the event, so the event is the largest so far.
    rw [if_pos hroom] at hsize
    exact ⟨by omega, by omega⟩
  · rw [if_neg hroom] at hsize
    exact ⟨by omega, by omega⟩

theorem Covers.foldl_fill
    {s : Scratch} {before : List Event} (h : s.Covers before) (es : List Event) :
    (es.foldl Scratch.fill s).Covers (before ++ es) := by
  induction es generalizing s before with
  | nil => rwa [List.append_nil]
  | cons e es ih =>
      rw [List.foldl_cons, List.append_cons]
      exact ih (h.fill e)

theorem covers_empty : Covers {} [] where
  largest_le := Nat.le_refl 0
  size_lt := Nat.zero_lt_succ 255

end Scratch

/-! ## The buffer of a writer -/

namespace Writer

/-- The events among the calls that are not refused, in order. -/
def unrefusedEvents (w : Writer) (calls : List Call) : List Event :=
  (w.unrefused calls).filterMap fun entry => entry.call.event?

theorem unrefusedEvents_cons (w : Writer) (c : Call) (calls : List Call) :
    w.unrefusedEvents (c :: calls) =
      if isRefusal (w.call c).1 then (w.call c).2.unrefusedEvents calls
      else c.event?.toList ++ (w.call c).2.unrefusedEvents calls := by
  rw [unrefusedEvents, unrefused_cons]
  split
  · rfl
  · cases c with
    | event e => rfl
    | flush => rfl

/-- An event that is refused does not touch the buffer, and any other one is laid
out in it, whatever the sink answers. -/
theorem scratch_write (w : Writer) (e : Event) :
    (isRefusal (w.write e).1 = true ∧ (w.write e).2.scratch = w.scratch) ∨
      (isRefusal (w.write e).1 = false ∧ (w.write e).2.scratch = w.scratch.fill e) := by
  obtain ⟨hrefused, hw⟩ | ⟨hkept, hwrite⟩ := w.write_refused_or_trusting e
  · exact .inl ⟨hrefused, congrArg scratch hw⟩
  · rw [write_trusting] at hwrite
    exact .inr ⟨hkept, congrArg (fun answer => answer.2.scratch) hwrite.symm⟩

theorem scratch_call (w : Writer) (c : Call) :
    (isRefusal (w.call c).1 = true ∧ (w.call c).2.scratch = w.scratch) ∨
      (isRefusal (w.call c).1 = false ∧
        (w.call c).2.scratch = c.event?.toList.foldl Scratch.fill w.scratch) := by
  cases c with
  | event e => exact w.scratch_write e
  | flush => exact .inr ⟨isRefusal_mapError_sink _, rfl⟩

/-- After any calls the buffer is what the events that were not refused have made
of it. -/
theorem scratch_serve (w : Writer) (calls : List Call) :
    (w.serve calls).2.scratch = (w.unrefusedEvents calls).foldl Scratch.fill w.scratch := by
  induction calls generalizing w with
  | nil => rfl
  | cons c calls ih =>
      have hrest := ih (w.call c).2
      rw [serve_cons, unrefusedEvents_cons, hrest]
      obtain ⟨hrefused, hscratch⟩ | ⟨hkept, hscratch⟩ := w.scratch_call c
      · rw [if_pos hrefused, hscratch]
      · rw [hkept, if_neg Bool.false_ne_true, List.foldl_append, hscratch]

/-- Whatever calls are made on a new writer, checked or not, and whatever its sink
does: the scratch buffer always holds the largest event that was not refused so
far, and at most `255` bytes more; later on it has the same size or is larger by
`256` bytes at least.  An event that is refused does not touch it.  Any other
event is laid out in it, every piece within the buffer as it stands then, and the
stretch that is offered to the sink lies within it too. -/
theorem scratch_follows_largest
    {sink : Sink} {w : Writer} (hw : w ∈ [checked sink, unchecked sink]) (calls : List Call) :
    let now := (w.serve calls).2
    let largest := Event.largestLength (w.unrefusedEvents calls)
    (largest ≤ now.scratch.size ∧ now.scratch.size ≤ largest + 255) ∧
    (∀ later, (now.serve later).2.scratch.size = now.scratch.size ∨
      now.scratch.size + 256 ≤ (now.serve later).2.scratch.size) ∧
    ∀ e, (isRefusal (now.write e).1 = true ∧ (now.write e).2.scratch = now.scratch) ∨
      (isRefusal (now.write e).1 = false ∧
        Scratch.Lays (now.scratch.reserve e.size) e.pieces (now.write e).2.scratch ∧
        e.size ≤ (now.write e).2.scratch.size) := by
  intro now largest
  have hempty : w.scratch = {} := by
    simp only [List.mem_cons, List.not_mem_nil, or_false] at hw
    obtain rfl | rfl := hw
    · rfl
    · rfl
  have hcovers : now.scratch.Covers (w.unrefusedEvents calls) := by
    have hnow : now.scratch = _ := w.scratch_serve calls
    rw [hnow, hempty]
    exact Scratch.covers_empty.foldl_fill (w.unrefusedEvents calls)
  refine ⟨⟨hcovers.largest_le, Nat.le_of_lt_succ hcovers.size_lt⟩, ?_, ?_⟩
  · intro later
    rw [now.scratch_serve later]
    exact now.scratch.size_foldl_fill_eq_or_le _
  · intro e
    refine (now.scratch_write e).imp id ?_
    rintro ⟨hkept, hscratch⟩
    rw [hscratch]
    exact ⟨hkept, now.scratch.lays_fill e, now.scratch.size_le_size_fill e⟩

/-- The sink breaks on a text of `252` bytes, which the buffer has grown for all the
same; the longer name is refused and leaves no trace in it.  From here on the
buffer stays as large, or gets `256` bytes more at least. -/
theorem scratch_follows_largest_broken :
    let sink : Sink := ⟨[.takeAll, .fail ⟨.other "BrokenPipe", "gone"⟩], [], []⟩
    let calls : List Call := [.event (.start .array),
      .event (.text (String.ofList (List.replicate 252 'x'))),
      .event (.member (String.ofList (List.replicate 999 'x'))), .event (.finish .array)]
    let now := ((checked sink).serve calls).2
    checked sink ∈ [checked sink, unchecked sink] ∧
      Event.largestLength ((checked sink).unrefusedEvents calls) = 258 ∧
      now.scratch.size = 512 ∧ now.scratch.size ≤ 258 + 255 ∧
      ∀ later, (now.serve later).2.scratch.size = 512 ∨
        768 ≤ (now.serve later).2.scratch.size := by
  intro sink calls now
  have hw : checked sink ∈ [checked sink, unchecked sink] := List.mem_cons_self
  have hlargest : Event.largestLength ((checked sink).unrefusedEvents calls) = 258 := by
    decide +kernel
  have hsize : now.scratch.size = 512 := by
    decide +kernel
  obtain ⟨⟨-, hle⟩, hlater, -⟩ := scratch_follows_largest hw calls
  rw [hlargest] at hle
  refine ⟨hw, hlargest, hsize, hle, ?_⟩
  intro later
  have hgrowth := hlater later
  rwa [hsize] at hgrowth

end Writer

end EcmaTree
