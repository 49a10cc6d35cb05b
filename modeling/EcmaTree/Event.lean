import EcmaTree.Number.Binary64

/-!
# Events

A value can be spelled out as a sequence of events, depth first: a scalar is one
event, an array is its items between a start and a finish, and in an object each
value follows the event that names it.  Values, documents and syntax trees all
meet the outside world in this form.

`Event.outline` keeps of an event only what matters for nesting.  `Event.feed`
hands events to a consumer one at a time and stops at the first one that it
refuses.
-/

namespace EcmaTree

inductive Container where
  | array
  | object
  deriving DecidableEq, Repr

def Container.name : Container → String
  | .array => "array"
  | .object => "object"

/-- One event of a stream. -/
inductive Event where
  | null
  | bool (b : Bool)
  | int (i : Int64)
  | float (x : Binary64)
  | text (s : String)
  | start (c : Container)
  | finish (c : Container)
  | member (name : String)
  deriving DecidableEq, Repr

/-- What an event does to the nesting of containers. -/
inductive Outline where
  | scalar
  | start (c : Container)
  | finish (c : Container)
  | member
  deriving DecidableEq, Repr

namespace Event

/-- A text that may be missing, as an event. -/
def ofText? : Option String → Event
  | some s => .text s
  | none => .null

def outline : Event → Outline
  | .start c => .start c
  | .finish c => .finish c
  | .member _ => .member
  | _ => .scalar

/-- Hands events to a consumer in order, until one is refused or none is left. -/
def feed {σ ε : Type} (consume : σ → Event → Except ε Unit × σ) :
    List Event → σ → Except ε Unit × σ
  | [], s => (.ok (), s)
  | e :: es, s =>
    match consume s e with
    | (.ok (), s') => feed consume es s'
    | (.error x, s') => (.error x, s')

end Event

end EcmaTree
