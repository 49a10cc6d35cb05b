import EcmaTree.Proofs.Values
import EcmaTree.Wire.Decoder

/-!
# Half-built values

A stack of frames is a value of which a part is still missing.  It stands for
the events that have built it so far, and every stack that can come about is the
beginning of some value: the open containers only have to be closed.
-/

namespace EcmaTree.Decoder

/-! ## Frames -/

namespace Frame

def container : Frame → Container
  | .array _ => .array
  | .object _ _ => .object

/-- The name that has been read but has no value yet. -/
def name? : Frame → Option String
  | .array _ => none
  | .object _ name => name

/-- A value may come next: the frame is an array, or has the name for it. -/
def AwaitsValue : Frame → Prop
  | .array _ => True
  | .object _ name => name.isSome

/-- The frame with a value put into its place. -/
def add (v : Value) : Frame → Frame
  | .array items => .array (v :: items)
  | .object members (some name) => .object ((name, v) :: members) none
  | .object members none => .object members none

/-- The value of a container that ends here. -/
def close : Frame → Value
  | .array items => .array items.reverse
  | .object members _ => .object members.reverse

@[simp] theorem name?_add (v : Value) (frame : Frame) : (frame.add v).name? = none := by
  rcases frame with items | ⟨members, _ | name⟩ <;> rfl

@[simp] theorem container_add (v : Value) (frame : Frame) :
    (frame.add v).container = frame.container := by
  rcases frame with items | ⟨members, _ | name⟩ <;> rfl

/-- A frame awaits a value or holds no pending name, and an array does both. -/
theorem awaitsValue_or_name?_eq_none (frame : Frame) :
    frame.AwaitsValue ∨ frame.name? = none := by
  rcases frame with items | ⟨members, _ | name⟩ <;> simp [AwaitsValue, name?]

end Frame

theorem attach_cons (v : Value) (frame : Frame) (outer : List Frame) :
    attach v (frame :: outer) = .pending (frame.add v :: outer) := by
  rcases frame with items | ⟨members, _ | name⟩ <;> rfl

/-- Every frame of the stack awaits a value. -/
def Awaiting (stack : List Frame) : Prop :=
  ∀ frame ∈ stack, frame.AwaitsValue

/-- All frames but the innermost one await the value that is being built inside
of them. -/
def Progress.WellFormed : Progress → Prop
  | .finished _ => True
  | .pending stack => Awaiting stack.tail

theorem wellFormed_attach
    {v : Value} {stack : List Frame} (h : Awaiting stack) :
    (attach v stack).WellFormed := by
  cases stack with
  | nil => trivial
  | cons frame outer =>
      rw [attach_cons]
      exact (List.forall_mem_cons.mp h).2

/-! ## Events of a half-built value -/

/-- The events that have led to a frame. -/
def Frame.events : Frame → List Event
  | .array items => .start .array :: items.reverse.flatMap Value.events
  | .object members name =>
    .start .object :: (members.reverse.flatMap Value.memberEvents ++ name.toList.map .member)

def stackEvents : List Frame → List Event
  | [] => []
  | frame :: outer => stackEvents outer ++ frame.events

def Progress.events : Progress → List Event
  | .finished v => v.events
  | .pending stack => stackEvents stack

theorem Frame.events_fresh (c : Container) : (Frame.fresh c).events = [.start c] := by
  cases c <;> rfl

theorem Frame.events_add
    (v : Value) {frame : Frame} (h : frame.AwaitsValue) :
    (frame.add v).events = frame.events ++ v.events := by
  rcases frame with items | ⟨members, _ | name⟩
  · simp [add, events]
  · simp [AwaitsValue] at h
  · simp [add, events, Value.memberEvents]

theorem Frame.events_close
    {frame : Frame} (h : frame.name? = none) :
    frame.close.events = frame.events ++ [.finish frame.container] := by
  rcases frame with items | ⟨members, _ | name⟩
  · simp [close, events, container, Value.events_array]
  · simp [close, events, container, Value.events_object]
  · simp [name?] at h

theorem events_attach
    (v : Value) {stack : List Frame} (h : Awaiting stack) :
    (attach v stack).events = stackEvents stack ++ v.events := by
  cases stack with
  | nil => rfl
  | cons frame outer =>
      have hframe := (List.forall_mem_cons.mp h).1
      rw [attach_cons, Progress.events, stackEvents, stackEvents, frame.events_add v hframe,
        List.append_assoc]

/-! ## Completion -/

/-- Whatever value comes next in a stack, it can be built to the end. -/
theorem exists_value_of_awaiting
    {stack : List Frame} (h : Awaiting stack) (v : Value) :
    ∃ w : Value, stackEvents stack ++ v.events <+: w.events := by
  induction stack generalizing v with
  | nil => exact ⟨v, by simp [stackEvents]⟩
  | cons frame outer ih =>
      obtain ⟨hframe, houter⟩ := List.forall_mem_cons.mp h
      obtain ⟨w, hw⟩ := ih houter (frame.add v).close
      refine ⟨w, List.IsPrefix.trans ⟨[.finish frame.container], ?_⟩ hw⟩
      rw [Frame.events_close (Frame.name?_add v frame), Frame.events_add v hframe,
        Frame.container_add, stackEvents]
      simp

/-- The events of a frame are the beginning of those of some container. -/
theorem Frame.exists_events_prefix (frame : Frame) :
    ∃ v : Value, frame.events <+: v.events := by
  rcases frame.awaitsValue_or_name?_eq_none with h | h
  · refine ⟨(frame.add .null).close, ?_⟩
    rw [events_close (name?_add .null frame), events_add .null h, List.append_assoc]
    exact List.prefix_append _ _
  · refine ⟨frame.close, ?_⟩
    rw [events_close h]
    exact List.prefix_append _ _

/-- Every well-formed state is on the way to some value. -/
theorem Progress.exists_completion
    {progress : Progress} (h : progress.WellFormed) :
    ∃ w : Value, progress.events <+: w.events := by
  cases progress with
  | finished v => exact ⟨v, List.prefix_refl _⟩
  | pending stack =>
      cases stack with
      | nil => exact ⟨.null, List.nil_prefix⟩
      | cons frame outer =>
          obtain ⟨v, hv⟩ := frame.exists_events_prefix
          obtain ⟨w, hw⟩ := exists_value_of_awaiting h v
          exact ⟨w, List.IsPrefix.trans ((List.prefix_append_right_inj _).mpr hv) hw⟩

end EcmaTree.Decoder
