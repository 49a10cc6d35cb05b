import EcmaTree.Event

/-!
# Nesting of events

`Nesting` follows a stream of events and accepts those that can still lead to
the events of exactly one value.  It keeps one context for each open container,
innermost first, and remembers whether the value at the top is complete.

Each event gives its outcome and the state after it, also if it is refused; a
refused event is meant to leave no trace.  A `Checkpoint` holds just enough to
take back an event that was accepted but could not be delivered.
-/

namespace EcmaTree

/-- What is known about an open container. -/
inductive Context where
  | array
  /-- An object, with a mark that is set between a member name and its value. -/
  | object (awaiting : Bool)
  deriving DecidableEq, Repr

def Context.container : Context → Container
  | .array => .array
  | .object _ => .object

/-- The context of a container that has just been opened. -/
def Context.fresh : Container → Context
  | .array => .array
  | .object => .object false

/-- Why an event, or the end of the stream, is out of place. -/
inductive NestingError where
  | unbalancedEnd (c : Container)
  | mismatchedEnd (expected found : Container)
  | memberOutsideObject
  | missingMember
  | missingValue
  | trailingValue
  | unfinished (depth : Nat)
  deriving DecidableEq, Repr

def NestingError.message : NestingError → String
  | .unbalancedEnd c => s!"end of {c.name} without a matching start"
  | .mismatchedEnd expected found =>
    s!"end of {found.name} while the innermost open container is an {expected.name}"
  | .memberOutsideObject => "member name outside of an object"
  | .missingMember => "value inside an object without a preceding member name"
  | .missingValue => "member name without a value"
  | .trailingValue => "more than one top-level value"
  | .unfinished depth => s!"stream finished with {depth} open container(s)"

/-- The state of a stream of events. -/
structure Nesting where
  /-- The open containers, innermost first. -/
  contexts : List Context := []
  /-- Set once the value at the top is complete. -/
  rootWritten : Bool := false
  deriving DecidableEq, Repr, Inhabited

/-- What is kept of a state in order to return to it. -/
structure Checkpoint where
  depth : Nat
  innermost : Option Context
  rootWritten : Bool
  deriving DecidableEq, Repr

namespace Nesting

/-- The number of open containers. -/
def depth (n : Nesting) : Nat :=
  n.contexts.length

/-- Set when the stream holds exactly one complete value. -/
def isComplete (n : Nesting) : Bool :=
  n.rootWritten && n.contexts.isEmpty

/-- Makes room for a value, which uses up a pending member name. -/
def enterValue (n : Nesting) : Except NestingError Unit × Nesting :=
  match n.contexts with
  | [] => if n.rootWritten then (.error .trailingValue, n) else (.ok (), n)
  | .array :: _ => (.ok (), n)
  | .object true :: outer => (.ok (), { n with contexts := .object false :: outer })
  | .object false :: _ => (.error .missingMember, n)

/-- Notes that a value has ended, which completes the stream outside of all containers. -/
def exitValue (n : Nesting) : Nesting :=
  match n.contexts with
  | [] => { n with rootWritten := true }
  | _ => n

/-- Makes room for a value and goes on from there. -/
def enterValueThen (n : Nesting) (next : Nesting → Nesting) :
    Except NestingError Unit × Nesting :=
  match n.enterValue with
  | (.ok (), n') => (.ok (), next n')
  | (.error error, n') => (.error error, n')

/-- Follows a value without parts. -/
def scalar (n : Nesting) : Except NestingError Unit × Nesting :=
  n.enterValueThen exitValue

def start (n : Nesting) (c : Container) : Except NestingError Unit × Nesting :=
  n.enterValueThen fun n' => { n' with contexts := Context.fresh c :: n'.contexts }

def finishContainer (n : Nesting) (c : Container) : Except NestingError Unit × Nesting :=
  match n.contexts with
  | [] => (.error (.unbalancedEnd c), n)
  | context :: outer =>
    if context.container ≠ c then (.error (.mismatchedEnd context.container c), n)
    else if context = .object true then (.error .missingValue, n)
    else (.ok (), exitValue { n with contexts := outer })

def member (n : Nesting) : Except NestingError Unit × Nesting :=
  match n.contexts with
  | .object true :: _ => (.error .missingValue, n)
  | .object false :: outer => (.ok (), { n with contexts := .object true :: outer })
  | _ => (.error .memberOutsideObject, n)

/-- Whether an event of the given outline is accepted, and the state after it. -/
def accept (n : Nesting) : Outline → Except NestingError Unit × Nesting
  | .scalar => n.scalar
  | .start c => n.start c
  | .finish c => n.finishContainer c
  | .member => n.member

/-- Checks that the stream may end here. -/
def finish (n : Nesting) : Except NestingError Unit :=
  if n.isComplete then .ok () else .error (.unfinished n.depth)

/-- What has to be kept in order to take back the next event. -/
def checkpoint (n : Nesting) : Checkpoint :=
  ⟨n.depth, n.contexts.head?, n.rootWritten⟩

/--
Returns to a checkpoint.

The contexts around the saved innermost one are taken from the present state,
cut to the saved depth.
-/
def rollback (n : Nesting) (saved : Checkpoint) : Nesting where
  contexts := saved.innermost.toList ++ n.contexts.drop (n.depth - (saved.depth - 1))
  rootWritten := saved.rootWritten

end Nesting

end EcmaTree
