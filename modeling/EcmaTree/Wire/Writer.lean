import EcmaTree.Event.Json
import EcmaTree.Event.Nesting
import EcmaTree.Event.Value
import EcmaTree.Stream.Sink
import EcmaTree.Wire.Scratch

/-!
# Writers

A writer encodes events and hands each of them to a sink as a whole.  A checked
writer first makes sure that the event fits what came before; it refuses the
event without touching the sink if it does not.  When the sink fails, the
nesting is taken back to where it was, so that the event may be tried again.
-/

namespace EcmaTree

/-- Why a writer refuses an event. -/
inductive WriteError where
  /-- The sink failed. -/
  | sink (fault : Fault)
  /-- The event is out of place. -/
  | nesting (error : NestingError)
  deriving DecidableEq, Repr

def WriteError.message : WriteError → String
  | .sink fault => s!"write error: {fault.message}"
  | .nesting error => s!"invalid event sequence: {error.message}"

structure Writer where
  sink : Sink := {}
  scratch : Scratch := {}
  /-- The nesting of a checked writer; a writer that trusts its caller has none. -/
  nesting : Option Nesting
  deriving DecidableEq, Repr

namespace Writer

/-- A writer that checks the nesting of events. -/
def checked (sink : Sink) : Writer where
  sink := sink
  nesting := some {}

/-- A writer that trusts its caller. -/
def unchecked (sink : Sink) : Writer where
  sink := sink
  nesting := none

/-- Lays out an event and hands it to the sink. -/
def transmit (w : Writer) (e : Event) : Except WriteError Unit × Writer :=
  let scratch := w.scratch.fill e
  match w.sink.writeAll (scratch.bytes.take e.size) with
  | (result, sink) => (result.mapError .sink, { w with sink, scratch })

def write (w : Writer) (e : Event) : Except WriteError Unit × Writer :=
  match w.nesting with
  | none => w.transmit e
  | some before =>
    match before.accept e.outline with
    | (.error error, after) => (.error (.nesting error), { w with nesting := some after })
    | (.ok (), after) =>
      match transmit { w with nesting := some after } e with
      | (.ok (), w') => (.ok (), w')
      | (.error error, w') =>
        (.error error, { w' with nesting := w'.nesting.map (·.rollback before.checkpoint) })

/-- Writes events until one is refused. -/
def writeEvents (w : Writer) (es : List Event) : Except WriteError Unit × Writer :=
  Event.feed write es w

def writeValue (w : Writer) (v : Value) : Except WriteError Unit × Writer :=
  w.writeEvents v.events

def writeJson {ν : Type} [JsonNumber ν] (w : Writer) (j : Json ν) :
    Except WriteError Unit × Writer :=
  w.writeEvents j.events

def flush (w : Writer) : Except WriteError Unit × Writer :=
  match w.sink.flush with
  | (result, sink) => (result.mapError .sink, { w with sink })

/-- Checks that the stream is complete, unless the caller is trusted, and
flushes the sink. -/
def finish (w : Writer) : Except WriteError Unit × Writer :=
  match w.nesting.elim (.ok ()) Nesting.finish with
  | .error error => (.error (.nesting error), w)
  | .ok () => w.flush

/-- The bytes of the events of one value. -/
def encodeEvents (es : List Event) : Except WriteError (List UInt8) :=
  match (checked {}).writeEvents es with
  | (.error error, _) => .error error
  | (.ok (), w) =>
    match w.finish with
    | (.error error, _) => .error error
    | (.ok (), w') => .ok w'.sink.accepted

end Writer

def Value.encode (v : Value) : Except WriteError (List UInt8) :=
  Writer.encodeEvents v.events

def Json.encode {ν : Type} [JsonNumber ν] (j : Json ν) : Except WriteError (List UInt8) :=
  Writer.encodeEvents j.events

end EcmaTree
