import EcmaTree.Proofs.Acceptance
import EcmaTree.Proofs.Frames
import Mathlib.Data.List.Induction

/-!
# The language of the nesting check

The nesting check accepts the outlines of values and nothing else, and it
refuses an event as soon as no value can begin with the events so far.

One half is an induction over values: the events of a value take a state where
one scalar takes it.  For the other half a stack of frames is carried along,
which holds all that has been accepted; the state of the check is a shadow of
that stack, and the stack can always be completed to a value.
-/

namespace EcmaTree

/-- The outlines of the events of a value, depth first. -/
def Value.skeleton (v : Value) : List Outline :=
  v.events.map Event.outline

theorem Value.skeleton_array (items : List Value) :
    (Value.array items).skeleton =
      .start .array :: (items.flatMap skeleton ++ [.finish .array]) := by
  simp only [skeleton, events_array, List.map_cons, List.map_append, List.map_flatMap]
  rfl

theorem Value.skeleton_object (members : List (String × Value)) :
    (Value.object members).skeleton =
      .start .object :: (members.flatMap (fun m => .member :: m.2.skeleton) ++
        [.finish .object]) := by
  simp only [skeleton, events_object, List.map_cons, List.map_append, List.map_flatMap]
  rfl

namespace Nesting

/-- Follows events one after another, up to the first one that is refused. -/
def acceptAll (n : Nesting) : List Outline → Except NestingError Unit × Nesting
  | [] => (.ok (), n)
  | o :: os =>
    match n.accept o with
    | (.ok (), m) => m.acceptAll os
    | (.error error, m) => (.error error, m)

theorem acceptAll_cons_of_ok
    {n m : Nesting} {o : Outline} (h : n.accept o = (.ok (), m)) (os : List Outline) :
    n.acceptAll (o :: os) = m.acceptAll os := by
  rw [acceptAll, h]

theorem acceptAll_cons_of_error
    {n m : Nesting} {o : Outline} {error : NestingError} (h : n.accept o = (.error error, m))
    (os : List Outline) :
    n.acceptAll (o :: os) = (.error error, m) := by
  rw [acceptAll, h]

theorem acceptAll_cons_eq_ok_iff {n m : Nesting} {o : Outline} {os : List Outline} :
    n.acceptAll (o :: os) = (.ok (), m) ↔
      ∃ k, n.accept o = (.ok (), k) ∧ k.acceptAll os = (.ok (), m) := by
  rw [acceptAll]
  obtain ⟨_ | _, k⟩ := n.accept o
  · simp
  · simp

@[simp] theorem acceptAll_singleton (n : Nesting) (o : Outline) :
    n.acceptAll [o] = n.accept o := by
  rw [acceptAll]
  obtain ⟨_ | _, k⟩ := n.accept o
  · rfl
  · rfl

theorem acceptAll_append_of_ok
    {n m : Nesting} {os : List Outline} (h : n.acceptAll os = (.ok (), m)) (ps : List Outline) :
    n.acceptAll (os ++ ps) = m.acceptAll ps := by
  induction os generalizing n with
  | nil =>
      cases h
      rfl
  | cons o os ih =>
      obtain ⟨k, haccept, hrest⟩ := acceptAll_cons_eq_ok_iff.mp h
      rw [List.cons_append, acceptAll_cons_of_ok haccept, ih hrest]

/-- What is accepted as a whole is accepted up to any point, and from there on. -/
theorem acceptAll_append_eq_ok_iff {n m : Nesting} {os ps : List Outline} :
    n.acceptAll (os ++ ps) = (.ok (), m) ↔
      ∃ k, n.acceptAll os = (.ok (), k) ∧ k.acceptAll ps = (.ok (), m) := by
  constructor
  · intro h
    induction os generalizing n with
    | nil => exact ⟨n, rfl, h⟩
    | cons o os ih =>
        obtain ⟨j, haccept, hrest⟩ := acceptAll_cons_eq_ok_iff.mp h
        obtain ⟨k, hos, hps⟩ := ih hrest
        exact ⟨k, (acceptAll_cons_of_ok haccept os).trans hos, hps⟩
  · rintro ⟨k, hos, hps⟩
    rw [acceptAll_append_of_ok hos, hps]

/-! ## Values are accepted -/

/-- What leaves a state alone does so any number of times. -/
theorem acceptAll_flatMap
    {α : Type} {n : Nesting} {outlines : α → List Outline} {xs : List α}
    (h : ∀ x ∈ xs, n.acceptAll (outlines x) = (.ok (), n)) :
    n.acceptAll (xs.flatMap outlines) = (.ok (), n) := by
  induction xs with
  | nil => rfl
  | cons x xs ih =>
      obtain ⟨hx, hxs⟩ := List.forall_mem_cons.mp h
      rw [List.flatMap_cons, acceptAll_append_of_ok hx]
      exact ih hxs

/-- A container counts as one scalar, if its contents leave it open as it was. -/
theorem acceptAll_container
    {c : Container} {body : List Outline}
    (hbody : ∀ (n : Nesting) (outer : List Context),
      n.contexts = Context.fresh c :: outer → n.acceptAll body = (.ok (), n))
    (n : Nesting) :
    n.acceptAll (.start c :: (body ++ [.finish c])) = n.scalar := by
  obtain ⟨answer, m, henter⟩ : ∃ answer m, n.enterValue = (answer, m) := ⟨_, _, rfl⟩
  cases answer with
  | error error =>
      have hstart : n.accept (.start c) = (.error error, m) :=
        enterValueThen_eq_error_iff.mpr henter
      have hscalar : n.scalar = (.error error, m) := enterValueThen_eq_error_iff.mpr henter
      rw [acceptAll_cons_of_error hstart, hscalar]
  | ok =>
      -- Between the start and the end lies a state that the contents do not change.
      have hstart : n.accept (.start c) =
          (.ok (), { m with contexts := Context.fresh c :: m.contexts }) :=
        enterValueThen_eq_ok_iff.mpr ⟨m, henter, rfl⟩
      have hscalar : n.scalar = (.ok (), m.exitValue) :=
        enterValueThen_eq_ok_iff.mpr ⟨m, henter, rfl⟩
      rw [acceptAll_cons_of_ok hstart, acceptAll_append_of_ok (hbody _ m.contexts rfl),
        acceptAll_singleton, hscalar]
      cases c <;> rfl

theorem scalar_of_array
    {n : Nesting} {outer : List Context} (h : n.contexts = .array :: outer) :
    n.scalar = (.ok (), n) := by
  simp [scalar, enterValueThen, enterValue, exitValue, h]

/-- A name and a scalar bring an object back to where it was. -/
theorem exists_scalar_of_member
    {n : Nesting} {outer : List Context} (h : n.contexts = .object false :: outer) :
    ∃ m, n.member = (.ok (), m) ∧ m.scalar = (.ok (), n) := by
  obtain ⟨contexts, root⟩ := n
  subst h
  exact ⟨_, rfl, rfl⟩

/-- The events of a value lead where one scalar leads, and are refused where it
is refused. -/
theorem acceptAll_skeleton (v : Value) (n : Nesting) :
    n.acceptAll v.skeleton = n.scalar := by
  induction v generalizing n with
  | null | bool | int | float | text => exact acceptAll_singleton n .scalar
  | array items ih =>
      rw [Value.skeleton_array]
      apply acceptAll_container
      intro m outer hm
      apply acceptAll_flatMap
      intro v hv
      rw [ih v hv]
      exact scalar_of_array hm
  | object members ih =>
      rw [Value.skeleton_object]
      apply acceptAll_container
      intro m outer hm
      apply acceptAll_flatMap
      intro member hmember
      obtain ⟨k, hname, hvalue⟩ := exists_scalar_of_member hm
      have haccept : m.accept .member = (.ok (), k) := hname
      rw [acceptAll_cons_of_ok haccept, ih member hmember]
      exact hvalue

end Nesting

/-! ## What has been accepted is a half-built value -/

namespace Decoder

/-- The context in which a frame takes its next event. -/
def Frame.context : Frame → Context
  | .array _ => .array
  | .object _ name => .object name.isSome

/-- The contexts of a stack.  The mark of an object is already cleared while the
value of its member is being built. -/
def contexts : List Frame → List Context
  | [] => []
  | frame :: outer => frame.context :: outer.map fun f => Context.fresh f.container

/-- The part of a state that the nesting check keeps. -/
def Progress.nesting : Progress → Nesting
  | .finished _ => ⟨[], true⟩
  | .pending stack => ⟨contexts stack, false⟩

theorem Frame.context_container (frame : Frame) :
    frame.context.container = frame.container := by
  cases frame <;> rfl

theorem Frame.context_of_name?_eq_none
    {frame : Frame} (h : frame.name? = none) :
    frame.context = Context.fresh frame.container := by
  cases frame with
  | array items => rfl
  | object members name =>
      rw [name?] at h
      subst h
      rfl

theorem nesting_attach (v : Value) (stack : List Frame) :
    (attach v stack).nesting =
      Nesting.exitValue ⟨stack.map fun f => Context.fresh f.container, false⟩ := by
  cases stack with
  | nil => rfl
  | cons frame outer =>
      rw [attach_cons, Progress.nesting, contexts,
        Frame.context_of_name?_eq_none (Frame.name?_add v frame), Frame.container_add]
      rfl

/-- A value may begin exactly where all frames await one. -/
theorem awaiting_of_enterValue
    {stack : List Frame} (hstack : Awaiting stack.tail) {n : Nesting}
    (h : (Progress.pending stack).nesting.enterValue = (.ok (), n)) :
    Awaiting stack ∧ n = ⟨stack.map fun f => Context.fresh f.container, false⟩ := by
  rcases stack with _ | ⟨frame, outer⟩
  · cases h
    exact ⟨hstack, rfl⟩
  · rcases frame with items | ⟨members, _ | name⟩
    · cases h
      exact ⟨List.forall_mem_cons.mpr ⟨trivial, hstack⟩, rfl⟩
    · cases h
    · cases h
      exact ⟨List.forall_mem_cons.mpr ⟨rfl, hstack⟩, rfl⟩

/-- Where a scalar is accepted, every value can be put. -/
theorem attach_of_scalar
    {stack : List Frame} (hstack : Awaiting stack.tail) {n : Nesting}
    (h : (Progress.pending stack).nesting.scalar = (.ok (), n)) (v : Value) :
    (attach v stack).WellFormed ∧ (attach v stack).nesting = n ∧
      (attach v stack).events = stackEvents stack ++ v.events := by
  obtain ⟨m, henter, rfl⟩ := Nesting.enterValueThen_eq_ok_iff.mp h
  obtain ⟨hawait, rfl⟩ := awaiting_of_enterValue hstack henter
  exact ⟨wellFormed_attach hawait, nesting_attach v stack, events_attach v hawait⟩

theorem push_of_start
    {stack : List Frame} (hstack : Awaiting stack.tail) {n : Nesting} {c : Container}
    (h : (Progress.pending stack).nesting.start c = (.ok (), n)) :
    Awaiting stack ∧ (Progress.pending (Frame.fresh c :: stack)).nesting = n := by
  obtain ⟨m, henter, rfl⟩ := Nesting.enterValueThen_eq_ok_iff.mp h
  obtain ⟨hawait, rfl⟩ := awaiting_of_enterValue hstack henter
  refine ⟨hawait, ?_⟩
  cases c <;> rfl

/-- Only the innermost container can end, and only without a pending name. -/
theorem close_of_finish
    {stack : List Frame} {n : Nesting} {c : Container}
    (h : (Progress.pending stack).nesting.finishContainer c = (.ok (), n)) :
    ∃ frame outer, stack = frame :: outer ∧ frame.container = c ∧ frame.name? = none ∧
      (attach frame.close outer).nesting = n := by
  obtain ⟨context, others, hcontexts, hc, hmark, rfl⟩ := Nesting.finishContainer_eq_ok_iff.mp h
  cases stack with
  | nil => cases hcontexts
  | cons frame outer =>
      obtain ⟨rfl, rfl⟩ := List.cons.inj hcontexts
      refine ⟨frame, outer, rfl, ?_, ?_, nesting_attach _ _⟩
      · rw [← frame.context_container, hc]
      · rcases frame with items | ⟨members, _ | name⟩
        · rfl
        · rfl
        · exact absurd rfl hmark

theorem name_of_member
    {stack : List Frame} {n : Nesting}
    (h : (Progress.pending stack).nesting.member = (.ok (), n)) (name : String) :
    ∃ members outer, stack = .object members none :: outer ∧
      (Progress.pending (.object members (some name) :: outer)).nesting = n := by
  obtain ⟨others, hcontexts, rfl⟩ := Nesting.member_eq_ok_iff.mp h
  rcases stack with _ | ⟨items | ⟨members, _ | other⟩, outer⟩
  · cases hcontexts
  · cases hcontexts
  · obtain ⟨-, rfl⟩ := List.cons.inj hcontexts
    exact ⟨members, outer, rfl, rfl⟩
  · cases hcontexts

/-- An event that is accepted extends what has been built so far. -/
theorem Progress.exists_of_accept
    {progress : Progress} (hprogress : progress.WellFormed) {e : Event} {n : Nesting}
    (h : progress.nesting.accept e.outline = (.ok (), n)) :
    ∃ progress' : Progress, progress'.WellFormed ∧ progress'.nesting = n ∧
      progress'.events = progress.events ++ [e] := by
  cases progress with
  | finished v => cases e <;> cases h
  | pending stack =>
      cases e with
      | null => exact ⟨_, attach_of_scalar hprogress h .null⟩
      | bool b => exact ⟨_, attach_of_scalar hprogress h (.bool b)⟩
      | int i => exact ⟨_, attach_of_scalar hprogress h (.int i)⟩
      | float x => exact ⟨_, attach_of_scalar hprogress h (.float x)⟩
      | text s => exact ⟨_, attach_of_scalar hprogress h (.text s)⟩
      | start c =>
          obtain ⟨hawait, hn⟩ := push_of_start hprogress h
          refine ⟨.pending (Frame.fresh c :: stack), hawait, hn, ?_⟩
          rw [events, stackEvents, Frame.events_fresh]
          rfl
      | finish c =>
          obtain ⟨frame, outer, rfl, rfl, hname, hn⟩ := close_of_finish h
          have houter : Awaiting outer := hprogress
          refine ⟨attach frame.close outer, wellFormed_attach houter, hn, ?_⟩
          rw [events_attach _ houter, Frame.events_close hname, events, stackEvents,
            List.append_assoc]
      | member name =>
          obtain ⟨members, outer, rfl, hn⟩ := name_of_member h name
          refine ⟨.pending (.object members (some name) :: outer), hprogress, hn, ?_⟩
          simp [events, stackEvents, Frame.events]

/-- A run of the nesting check builds a value step by step. -/
theorem exists_progress_of_acceptAll
    {es : List Event} {n : Nesting}
    (h : Nesting.acceptAll {} (es.map Event.outline) = (.ok (), n)) :
    ∃ progress : Progress, progress.WellFormed ∧ progress.nesting = n ∧
      progress.events = es := by
  -- The frames grow with the events, so the last event is taken off.
  induction es using List.reverseRecOn generalizing n with
  | nil =>
      cases h
      exact ⟨.pending [], List.forall_mem_nil _, rfl, rfl⟩
  | append_singleton es e ih =>
      rw [List.map_append] at h
      obtain ⟨m, hes, hlast⟩ := Nesting.acceptAll_append_eq_ok_iff.mp h
      obtain ⟨progress, hprogress, rfl, rfl⟩ := ih hes
      exact Progress.exists_of_accept hprogress
        ((Nesting.acceptAll_singleton _ _).symm.trans hlast)

end Decoder

namespace Nesting

/-- The stream is complete after the events of one value only. -/
theorem exists_events_eq_of_finish
    {es : List Event} {n : Nesting}
    (h : acceptAll {} (es.map Event.outline) = (.ok (), n)) (hfinish : n.finish = .ok ()) :
    ∃ v : Value, v.events = es := by
  obtain ⟨progress, -, rfl, rfl⟩ := Decoder.exists_progress_of_acceptAll h
  cases progress with
  | finished v => exact ⟨v, rfl⟩
  | pending stack => cases hfinish

/-- The events accepted so far are the beginning of those of some value. -/
theorem exists_events_prefix
    {es : List Event} {n : Nesting}
    (h : acceptAll {} (es.map Event.outline) = (.ok (), n)) :
    ∃ v : Value, es <+: v.events := by
  obtain ⟨progress, hprogress, -, rfl⟩ := Decoder.exists_progress_of_acceptAll h
  exact Decoder.Progress.exists_completion hprogress

end Nesting

/-! ## The accepted language -/

def Outline.event : Outline → Event
  | .scalar => .null
  | .start c => .start c
  | .finish c => .finish c
  | .member => .member ""

theorem Outline.map_outline_event (os : List Outline) :
    (os.map event).map Event.outline = os := by
  rw [List.map_map]
  conv_rhs => rw [← List.map_id os]
  apply List.map_congr_left
  intro o _
  cases o <;> rfl

namespace Nesting

theorem acceptAll_skeleton_empty (v : Value) :
    acceptAll {} v.skeleton = (.ok (), ⟨[], true⟩) :=
  acceptAll_skeleton v {}

/-- An event can follow exactly if some value begins like this. -/
theorem exists_acceptAll_iff_exists_prefix {os : List Outline} :
    (∃ n, acceptAll {} os = (.ok (), n)) ↔ ∃ v : Value, os <+: v.skeleton := by
  constructor
  · rintro ⟨n, hn⟩
    rw [← Outline.map_outline_event os] at hn
    obtain ⟨v, hv⟩ := exists_events_prefix hn
    refine ⟨v, ?_⟩
    rw [← Outline.map_outline_event os]
    exact hv.map Event.outline
  · rintro ⟨v, rest, hv⟩
    have haccept := acceptAll_skeleton_empty v
    rw [← hv] at haccept
    obtain ⟨n, hn, -⟩ := acceptAll_append_eq_ok_iff.mp haccept
    exact ⟨n, hn⟩

/-- The nesting check accepts exactly the outlines of single values, and refuses
an event exactly if no value begins with the events so far and this one.  Its
state is then the same as before. -/
theorem accepts_exactly_skeletons :
    (∀ os : List Outline,
      (∃ n, acceptAll {} os = (.ok (), n) ∧ n.finish = .ok ()) ↔
        ∃ v : Value, v.skeleton = os) ∧
    ∀ (os : List Outline) (n : Nesting), acceptAll {} os = (.ok (), n) →
      ∀ o : Outline,
        ((∃ error, (n.accept o).1 = .error error) ↔
          ¬∃ v : Value, os ++ [o] <+: v.skeleton) ∧
        ∀ (error : NestingError) (m : Nesting), n.accept o = (.error error, m) → m = n := by
  constructor
  · intro os
    constructor
    · rintro ⟨n, hn, hfinish⟩
      rw [← Outline.map_outline_event os] at hn
      obtain ⟨v, hv⟩ := exists_events_eq_of_finish hn hfinish
      refine ⟨v, ?_⟩
      rw [Value.skeleton, hv, Outline.map_outline_event]
    · rintro ⟨v, rfl⟩
      exact ⟨⟨[], true⟩, acceptAll_skeleton_empty v, rfl⟩
  · intro os n hn o
    refine ⟨?_, fun error m => accept_of_error⟩
    rw [← exists_acceptAll_iff_exists_prefix, acceptAll_append_of_ok hn, acceptAll_singleton]
    obtain ⟨m, haccept⟩ | ⟨error, haccept⟩ := n.accept_eq_ok_or_error o
    · simp [haccept]
    · simp [haccept]

/-- After the start of an object the check refuses its second value, and no
value begins with these events. -/
theorem accepts_exactly_skeletons_unnamed :
    acceptAll {} [.start .object, .member, .scalar] = (.ok (), ⟨[.object false], false⟩) ∧
      ¬∃ v : Value, [.start .object, .member, .scalar] ++ [.scalar] <+: v.skeleton :=
  ⟨rfl, (accepts_exactly_skeletons.2 [.start .object, .member, .scalar]
    ⟨[.object false], false⟩ rfl .scalar).1.mp ⟨.missingMember, rfl⟩⟩

end Nesting

end EcmaTree
