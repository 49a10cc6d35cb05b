import EcmaTree.Proofs.Recognition

/-!
# No value is lost in decoding

A value that is complete is put into the frame around it, and an object that has
no name for it would drop it without a word.  That never happens: a container is
opened only where a value is awaited, so all the frames around the innermost one
keep awaiting theirs, and a frame awaits a value again when the one inside of it
is closed.

`Decoder.turn` is a step in which nothing has been put into its place yet, so
that the value, the frames around it and the item that was read can be spoken of.
The items read so far account for the stack: those read since a container was
opened are the names and values that its frame holds, in order.
-/

namespace EcmaTree

namespace Decoder

/-! ## Turns of the loop -/

/-- What is read in one turn of the loop. -/
inductive Item where
  | scalar (v : Value)
  | start (c : Container)
  | finish (c : Container)
  | name (s : String)

def Item.events : Item → List Event
  | .scalar v => v.events
  | .start c => [.start c]
  | .finish c => [.finish c]
  | .name s => [.member s]

/-- What a turn comes to: a value is complete, inside of certain frames, or there is
a stack to go on with. -/
inductive Outcome where
  | complete (v : Value) (around : List Frame)
  | goOn (stack : List Frame)

/-- Where decoding stands after a turn.  A complete value is attached to the frames
around it, here and nowhere else. -/
def Outcome.progress : Outcome → Progress
  | .complete v around => attach v around
  | .goOn stack => .pending stack

theorem Outcome.progress_eq_finished_iff {outcome : Outcome} {v : Value} :
    outcome.progress = .finished v ↔ outcome = .complete v [] := by
  rcases outcome with ⟨w, _ | ⟨frame, outer⟩⟩ | stack
  · simp [progress, Decoder.attach]
  · simp [progress, attach_cons]
  · simp [progress]

/-- The turn for a scalar that has been read or a container that starts. -/
def turnStart (bound : Nat) (stack : List Frame) : Value ⊕ Container → Decode (Item × Outcome)
  | .inl v => pure (.scalar v, .complete v stack)
  | .inr c =>
    if bound ≤ stack.length then throw (.tooDeep bound)
    else pure (.start c, .goOn (Frame.fresh c :: stack))

/-- The turn for an item whose first byte is `b`. -/
def turnByte (bound : Nat) (stack : List Frame) (b : UInt8) : Decode (Item × Outcome) :=
  match stack with
  | .array items :: outer =>
    if b = Tag.arrayEnd.byte then pure (.finish .array, .complete (.array items.reverse) outer)
    else takeStart b >>= turnStart bound stack
  | .object members none :: outer =>
    if b = Tag.objectEnd.byte then
      pure (.finish .object, .complete (.object members.reverse) outer)
    else
      (fun name => (.name name, .goOn (.object members (some name) :: outer))) <$> takeText b
  | _ => takeStart b >>= turnStart bound stack

/-- One turn of the loop: the item that is read, and what it comes to. -/
def turn (bound : Nat) (stack : List Frame) : Decode (Item × Outcome) :=
  takeByte >>= turnByte bound stack

theorem stepValue_eq_map (bound : Nat) (stack : List Frame) (b : UInt8) :
    stepValue bound stack b =
      (fun t => t.2.progress) <$> (takeStart b >>= turnStart bound stack) := by
  rw [stepValue, map_bind]
  congr 1
  funext start
  rcases start with v | c
  · rfl
  · rw [place, turnStart]
    split <;> rfl

theorem stepByte_eq_map (bound : Nat) (stack : List Frame) (b : UInt8) :
    stepByte bound stack b = (fun t => t.2.progress) <$> turnByte bound stack b := by
  rcases stack with _ | ⟨items | ⟨members, _ | name⟩, outer⟩
  · exact stepValue_eq_map bound _ b
  · rw [stepByte, turnByte]
    split
    · rfl
    · exact stepValue_eq_map bound _ b
  · rw [stepByte, turnByte]
    split
    · rfl
    · rw [Functor.map_map]
      rfl
  · exact stepValue_eq_map bound _ b

/-- A step is a turn whose outcome has been put into its place. -/
theorem step_eq_map_turn (bound : Nat) (stack : List Frame) :
    step bound stack = (fun t => t.2.progress) <$> turn bound stack := by
  rw [step, turn, map_bind]
  congr 1
  funext b
  exact stepByte_eq_map bound stack b

theorem step_eq_ok_iff
    {bound : Nat} {stack : List Frame} {source source' : Source} {progress : Progress} :
    step bound stack source = .ok progress source' ↔
      ∃ item outcome, turn bound stack source = .ok (item, outcome) source' ∧
        outcome.progress = progress := by
  simp only [step_eq_map_turn, Functor.map, EStateM.map]
  cases turn bound stack source with
  | error => simp
  | ok t =>
      constructor
      · intro h
        cases h
        exact ⟨t.1, t.2, rfl, rfl⟩
      · rintro ⟨item, outcome, hturn, rfl⟩
        cases hturn
        rfl

/-! ## What a turn can do -/

section Yields

variable {α β : Type}

/-- Whatever it reads, the result of a computation that succeeds has a property. -/
def Yields (m : Decode α) (property : α → Prop) : Prop :=
  ∀ source a source', m source = .ok a source' → property a

theorem yields_pure {a : α} {property : α → Prop} (h : property a) : Yields (pure a) property := by
  intro source a' source' heq
  cases heq
  exact h

theorem yields_throw (error : DecodeError) (property : α → Prop) :
    Yields (throw error) property := by
  intro source a source' heq
  cases heq

theorem Yields.bind
    {m : Decode α} {f : α → Decode β} {first : α → Prop} {property : β → Prop}
    (hm : Yields m first) (hf : ∀ a, first a → Yields (f a) property) :
    Yields (m >>= f) property := by
  intro source b source' heq
  simp only [Bind.bind, EStateM.bind] at heq
  split at heq
  next a middle hfirst => exact hf a (hm _ _ _ hfirst) _ _ _ heq
  · cases heq

theorem yields_bind
    (m : Decode α) {f : α → Decode β} {property : β → Prop}
    (hf : ∀ a, Yields (f a) property) :
    Yields (m >>= f) property := by
  have hm : Yields m fun _ => True := fun _ _ _ _ => trivial
  exact hm.bind fun a _ => hf a

theorem yields_map
    (m : Decode α) {f : α → β} {property : β → Prop} (hf : ∀ a, property (f a)) :
    Yields (f <$> m) property := by
  rw [← bind_pure_comp]
  exact yields_bind m fun a => yields_pure (hf a)

end Yields

/-- What is read at once is never an object. -/
theorem yields_takeStart (b : UInt8) :
    Yields (takeStart b) fun start => ∀ members, start ≠ .inl (.object members) := by
  unfold takeStart
  split
  · exact yields_throw _ _
  · exact yields_pure (by simp)
  · exact yields_pure (by simp)
  · exact yields_pure (by simp)
  · exact yields_map _ (by simp)
  · exact yields_map _ (by simp)
  · exact yields_map _ (by simp)
  · exact yields_map _ (by simp)
  · exact yields_map _ (by simp)
  · exact yields_pure (by simp)
  · exact yields_pure (by simp)
  · exact yields_throw _ _
  · exact yields_throw _ _

/-- What a turn can read over a stack, and what that comes to. -/
inductive Does : List Frame → Item → Outcome → Prop where
  | scalar {stack : List Frame} {v : Value} (hready : ReadyForValue stack)
      (hscalar : ∀ members, v ≠ .object members) :
      Does stack (.scalar v) (.complete v stack)
  | start {stack : List Frame} (c : Container) (hready : ReadyForValue stack) :
      Does stack (.start c) (.goOn (Frame.fresh c :: stack))
  | finish {frame : Frame} {outer : List Frame} (hname : frame.name? = none) :
      Does (frame :: outer) (.finish frame.container) (.complete frame.close outer)
  | name (members : List (String × Value)) (outer : List Frame) (s : String) :
      Does (.object members none :: outer) (.name s) (.goOn (.object members (some s) :: outer))

theorem yields_turnStart
    (bound : Nat) {stack : List Frame} (hready : ReadyForValue stack) (b : UInt8) :
    Yields (takeStart b >>= turnStart bound stack) fun t => Does stack t.1 t.2 := by
  refine (yields_takeStart b).bind ?_
  rintro (v | c) hstart
  · refine yields_pure (.scalar hready ?_)
    rintro members rfl
    exact hstart members rfl
  · rw [turnStart]
    split
    · exact yields_throw _ _
    · exact yields_pure (.start c hready)

theorem yields_turn (bound : Nat) (stack : List Frame) :
    Yields (turn bound stack) fun t => Does stack t.1 t.2 := by
  refine yields_bind takeByte fun b => ?_
  rcases stack with _ | ⟨items | ⟨members, _ | name⟩, outer⟩
  · exact yields_turnStart bound (by simp [ReadyForValue]) b
  · rw [turnByte]
    split
    · exact yields_pure (.finish rfl)
    · exact yields_turnStart bound (by simp [ReadyForValue, Frame.AwaitsValue]) b
  · rw [turnByte]
    split
    · exact yields_pure (.finish rfl)
    · exact yields_map _ fun s => .name members outer s
  · exact yields_turnStart bound (by simp [ReadyForValue, Frame.AwaitsValue]) b

/-! ## The items read so far -/

/-- After reading some items the loop has come to a stack and a source. -/
inductive Reaches (bound : Nat) (source : Source) : List Item → List Frame → Source → Prop where
  | start : Reaches bound source [] [] source
  | goOn {items : List Item} {stack stack' : List Frame} {now next : Source} {item : Item}
      {outcome : Outcome} (h : Reaches bound source items stack now)
      (hturn : turn bound stack now = .ok (item, outcome) next)
      (hstep : step bound stack now = .ok (.pending stack') next) :
      Reaches bound source (items ++ [item]) stack' next

/-- Items account for a stack: up to the opening of a container they account for the
frames around it, all of which await a value, and from there on they are what its
frame holds. -/
inductive Accounts (bound : Nat) (source : Source) : List Item → List Frame → Prop where
  | nil : Accounts bound source [] []
  | cons {before since : List Item} {frame : Frame} {outer : List Frame} {opened : Source}
      (hreach : Reaches bound source before outer opened)
      (houter : Accounts bound source before outer) (hawaiting : Awaiting outer)
      (hsince : (.start frame.container :: since).flatMap Item.events = frame.events) :
      Accounts bound source (before ++ .start frame.container :: since) (frame :: outer)

section

variable {bound : Nat} {source : Source} {items : List Item} {stack : List Frame}

theorem Accounts.awaiting_tail (h : Accounts bound source items stack) : Awaiting stack.tail := by
  cases h with
  | nil => exact List.forall_mem_nil _
  | cons _ _ hawaiting _ => exact hawaiting

theorem Accounts.awaiting
    (h : Accounts bound source items stack) (hready : ReadyForValue stack) :
    Awaiting stack := by
  cases h with
  | nil => exact List.forall_mem_nil _
  | cons _ _ hawaiting _ => exact List.forall_mem_cons.mpr ⟨hready _ rfl, hawaiting⟩

/-- The innermost frame takes up what has been read since. -/
theorem Accounts.extend
    {frame frame' : Frame} {outer : List Frame} (h : Accounts bound source items (frame :: outer))
    {more : List Item} (hcontainer : frame'.container = frame.container)
    (hevents : frame'.events = frame.events ++ more.flatMap Item.events) :
    Accounts bound source (items ++ more) (frame' :: outer) := by
  cases h with
  | @cons before since _ _ opened hreach houter hawaiting hsince =>
      rw [← hcontainer] at hsince ⊢
      rw [List.append_assoc, List.cons_append]
      refine .cons hreach houter hawaiting ?_
      rw [hevents, ← hsince, ← List.flatMap_append, List.cons_append]

/-- A value that is put into frames which await it is accounted for. -/
theorem Accounts.attach
    (h : Accounts bound source items stack) (hawaiting : Awaiting stack)
    {more : List Item} {v : Value} (hv : more.flatMap Item.events = v.events)
    {stack' : List Frame} (hnext : Decoder.attach v stack = .pending stack') :
    Accounts bound source (items ++ more) stack' := by
  cases stack with
  | nil => cases hnext
  | cons frame outer =>
      rw [attach_cons] at hnext
      cases hnext
      have hframe := (List.forall_mem_cons.mp hawaiting).1
      exact h.extend (frame.container_add v) (by rw [frame.events_add v hframe, hv])

/-- A value is complete with the last of the items that it consists of, and the
frames around it await it. -/
theorem Accounts.complete
    (h : Accounts bound source items stack) {item : Item} {v : Value} {around : List Frame}
    (hdoes : Does stack item (.complete v around)) :
    ∃ before more, items ++ [item] = before ++ more ∧ Accounts bound source before around ∧
      Awaiting around ∧ more.flatMap Item.events = v.events := by
  cases hdoes with
  | scalar hready => exact ⟨items, _, rfl, h, h.awaiting hready, by simp [Item.events]⟩
  | @finish frame outer hname =>
      cases h with
      | @cons before since _ _ opened _ houter hawaiting hsince =>
          -- The value has been read from the opening of its container on.
          refine ⟨before, _, List.append_assoc _ _ _, houter, hawaiting, ?_⟩
          rw [List.flatMap_append, hsince, Frame.events_close hname]
          rfl

/-- The items read so far account for the stack. -/
theorem Reaches.accounts
    {now : Source} (h : Reaches bound source items stack now) :
    Accounts bound source items stack := by
  induction h with
  | start => exact .nil
  | @goOn items stack stack' now next item outcome h hturn hstep ih =>
      have hdoes : Does stack item outcome := yields_turn bound stack _ _ _ hturn
      have hprogress : outcome.progress = .pending stack' := by
        have hturned := step_eq_ok_iff.mpr ⟨item, outcome, hturn, rfl⟩
        rw [hstep] at hturned
        exact (EStateM.Result.ok.inj hturned).1.symm
      -- A frame is lost only with a value that is complete, and what accounts for the
      -- frames around the value is part of the account of the stack.
      cases outcome with
      | complete v around =>
          obtain ⟨before, more, hitems, haccounts, hawaiting, hmore⟩ := ih.complete hdoes
          rw [hitems]
          exact haccounts.attach hawaiting hmore hprogress
      | goOn stack' =>
          cases hprogress
          cases hdoes with
          | name members outer s => exact ih.extend rfl (by simp [Frame.events, Item.events])
          | start c hready =>
              have hc : (Frame.fresh c).container = c := by cases c <;> rfl
              have hsince : (.start (Frame.fresh c).container :: []).flatMap Item.events =
                  (Frame.fresh c).events := by
                rw [hc, Frame.events_fresh]
                rfl
              have hopened := Accounts.cons h ih (ih.awaiting hready) hsince
              rwa [hc] at hopened

/-- An object that may be closed holds exactly the names and values that were read
since it was opened. -/
theorem Accounts.exists_opening
    {members : List (String × Value)} {outer : List Frame}
    (h : Accounts bound source items (.object members none :: outer)) :
    ∃ before since opened, Reaches bound source before outer opened ∧
      items = before ++ .start .object :: since ∧
      since.flatMap Item.events = members.reverse.flatMap Value.memberEvents := by
  cases h with
  | @cons before since _ _ opened hreach _ _ hsince =>
      refine ⟨before, since, opened, hreach, rfl, ?_⟩
      simpa [Item.events, Frame.events, Frame.container] using hsince

end

/-- A run that succeeds comes to a turn in which the value is complete. -/
theorem Reaches.exists_last_turn
    {bound : Nat} {source : Source} {items : List Item} {stack : List Frame} {now : Source}
    (h : Reaches bound source items stack now) {v : Value} {last : Source}
    (hrun : run bound stack now = (.ok v, last)) :
    ∃ items stack now item, Reaches bound source items stack now ∧
      turn bound stack now = .ok (item, .complete v []) last := by
  fun_induction run bound stack now generalizing items with
  | case1 stack now w next hstep =>
      cases hrun
      obtain ⟨item, outcome, hturn, hprogress⟩ := step_eq_ok_iff.mp hstep
      obtain rfl := Outcome.progress_eq_finished_iff.mp hprogress
      exact ⟨items, stack, now, item, h, hturn⟩
  | case2 stack now stack' next hstep ih =>
      obtain ⟨item, outcome, hturn, -⟩ := step_eq_ok_iff.mp hstep
      exact ih (.goOn h hturn hstep) hrun
  | case3 => cases hrun

theorem Awaiting.name_ne_none
    {stack : List Frame} (h : Awaiting stack) {members : List (String × Value)}
    {name : Option String} (hmem : .object members name ∈ stack) :
    name ≠ none :=
  Option.isSome_iff_ne_none.mp (h _ hmem)

end Decoder

namespace Source

open Decoder

/-- Whatever the source and the bound: at every turn of the loop, all objects on the
stack but the innermost frame have a name for the value to come.  Whenever a value
is complete, an object around it has a name for it; and if the value is an object,
its members are exactly the names and values that were read since the loop stood
before its start, in order.  A value that is decoded consists of all that was
read. -/
theorem decode_loses_no_value (source : Source) (bound : Nat) :
    (∀ items stack now, Reaches bound source items stack now →
      (∀ members name, .object members name ∈ stack.tail → name ≠ none) ∧
      ∀ item v around next, turn bound stack now = .ok (item, .complete v around) next →
        (∀ members name outer, around = .object members name :: outer → name ≠ none) ∧
        ∀ members, v = .object members → ∃ before since opened,
          Reaches bound source before around opened ∧
          items ++ [item] = before ++ .start .object :: since ++ [.finish .object] ∧
          since.flatMap Item.events = members.flatMap Value.memberEvents) ∧
    ∀ v last, source.decode bound = (.ok v, last) → ∃ items stack now item,
      Reaches bound source items stack now ∧
      turn bound stack now = .ok (item, .complete v []) last ∧
      (items ++ [item]).flatMap Item.events = v.events := by
  constructor
  · intro items stack now hreach
    have haccounts := hreach.accounts
    refine ⟨fun members name => haccounts.awaiting_tail.name_ne_none, ?_⟩
    intro item v around next hturn
    have hdoes : Does stack item (.complete v around) := yields_turn bound stack _ _ _ hturn
    obtain ⟨-, -, -, -, hawaiting, -⟩ := haccounts.complete hdoes
    constructor
    · rintro members name outer rfl
      exact hawaiting.name_ne_none List.mem_cons_self
    · rintro members rfl
      generalize hv : Value.object members = v at hdoes
      cases hdoes with
      | scalar _ hscalar => exact absurd hv.symm (hscalar members)
      | @finish frame _ hname =>
          rcases frame with values | ⟨latest, _ | name⟩
          · cases hv
          · cases hv
            obtain ⟨before, since, opened, hopened, rfl, hsince⟩ := haccounts.exists_opening
            exact ⟨before, since, opened, hopened, rfl, hsince⟩
          · cases hname
  · intro v last hdecode
    obtain ⟨items, stack, now, item, hreach, hturn⟩ :=
      Reaches.start.exists_last_turn hdecode
    have hdoes : Does stack item (.complete v []) := yields_turn bound stack _ _ _ hturn
    obtain ⟨before, more, hitems, hbefore, -, hmore⟩ := hreach.accounts.complete hdoes
    cases hbefore
    refine ⟨items, stack, now, item, hreach, hturn, ?_⟩
    rw [hitems, List.nil_append, hmore]

/-- An object in an object, where the inner one is about to end: the outer one has a
name for it, and its member is what was read since its start. The value that is
decoded in the end consists of all that was read. -/
theorem decode_loses_no_value_nested :
    let source : Source := ⟨[0x7B, 0x43, 0x61, 0x7B, 0x43, 0x62, 0x5A, 0x7D, 0x7D], 0, []⟩
    let outer : List Frame := [.object [] (some "a")]
    let inner : Value := .object [("b", .null)]
    (∃ items stack now next, Reaches 2 source items stack now ∧
      turn 2 stack now = .ok (.finish .object, .complete inner outer) next ∧
      ∃ before since opened, Reaches 2 source before outer opened ∧
        items ++ [.finish .object] = before ++ .start .object :: since ++ [.finish .object] ∧
        since.flatMap Item.events = [.member "b", .null]) ∧
    source.decode 2 = (.ok (.object [("a", inner)]), ⟨[], 9, []⟩) ∧
    ∃ items stack now item, Reaches 2 source items stack now ∧
      turn 2 stack now = .ok (item, .complete (.object [("a", inner)]) []) ⟨[], 9, []⟩ ∧
      (items ++ [item]).flatMap Item.events = [.start .object, .member "a", .start .object,
        .member "b", .null, .finish .object, .finish .object] := by
  intro source outer inner
  have hopened : Reaches 2 source [.start .object] [.object [] none]
      ⟨[0x43, 0x61, 0x7B, 0x43, 0x62, 0x5A, 0x7D, 0x7D], 1, []⟩ :=
    .goOn .start rfl rfl
  have hnamed : Reaches 2 source [.start .object, .name "a"] outer
      ⟨[0x7B, 0x43, 0x62, 0x5A, 0x7D, 0x7D], 3, []⟩ :=
    .goOn hopened rfl rfl
  have hinner : Reaches 2 source [.start .object, .name "a", .start .object]
      (.object [] none :: outer) ⟨[0x43, 0x62, 0x5A, 0x7D, 0x7D], 4, []⟩ :=
    .goOn hnamed rfl rfl
  have hawaits : Reaches 2 source [.start .object, .name "a", .start .object, .name "b"]
      (.object [] (some "b") :: outer) ⟨[0x5A, 0x7D, 0x7D], 6, []⟩ :=
    .goOn hinner rfl rfl
  have hreach : Reaches 2 source
      [.start .object, .name "a", .start .object, .name "b", .scalar .null]
      (.object [("b", .null)] none :: outer) ⟨[0x7D, 0x7D], 7, []⟩ :=
    .goOn hawaits rfl rfl
  have hturn : turn 2 (.object [("b", .null)] none :: outer) ⟨[0x7D, 0x7D], 7, []⟩ =
      .ok (.finish .object, .complete inner outer) ⟨[0x7D], 8, []⟩ := rfl
  have hdecode :
      (⟨[0x7B, 0x43, 0x61, 0x7B, 0x43, 0x62, 0x5A, 0x7D, 0x7D], 0, []⟩ : Source).decode 2 =
        (.ok (.object [("a", .object [("b", .null)])]), ⟨[], 9, []⟩) := by
    cbv
  obtain ⟨hturns, hvalues⟩ := decode_loses_no_value source 2
  obtain ⟨-, hcomplete⟩ := hturns _ _ _ hreach
  obtain ⟨-, hmembers⟩ := hcomplete _ _ _ _ hturn
  exact ⟨⟨_, _, _, _, hreach, hturn, hmembers _ rfl⟩, hdecode, hvalues _ _ hdecode⟩

end Source

end EcmaTree
