import EcmaTree.Stream.Fault

/-!
# Sinks

A sink takes bytes.  It may take only some of those that are offered, or fail;
what it will do is fixed by one script for offers and one for flushes, and
beyond its scripts it takes everything.  The log of calls tells afterwards what
was offered and what was taken.
-/

namespace EcmaTree

/-- How a sink answers one offer of bytes. -/
inductive Response where
  | takeAll
  | takeAtMost (n : Nat)
  | fail (fault : Fault)
  deriving DecidableEq, Repr

inductive SinkCall where
  /-- An offer of as many bytes, and the bytes that were taken of it. -/
  | write (offered : Nat) (taken : List UInt8)
  | flush
  deriving DecidableEq, Repr

def SinkCall.taken : SinkCall → List UInt8
  | .write _ taken => taken
  | .flush => []

/-- A sink and its history. -/
structure Sink where
  /-- The answers to the offers to come. -/
  responses : List Response := []
  /-- The answers to the flushes to come. -/
  flushes : List (Option Fault) := []
  /-- The calls made so far, latest first. -/
  log : List SinkCall := []
  deriving DecidableEq, Repr, Inhabited

namespace Sink

/-- All the bytes taken so far, in order. -/
def accepted (s : Sink) : List UInt8 :=
  s.log.reverse.flatMap SinkCall.taken

/--
Offers bytes, of which there must be some, until all are taken.

An interrupted offer is made again, a sink that takes nothing is at fault, and
so is one that fails otherwise.
-/
def deliver (flushes : List (Option Fault)) (bytes : List UInt8) (log : List SinkCall) :
    List Response → Except Fault Unit × Sink
  | [] => (.ok (), ⟨[], flushes, .write bytes.length bytes :: log⟩)
  | .takeAll :: responses =>
    (.ok (), ⟨responses, flushes, .write bytes.length bytes :: log⟩)
  | .takeAtMost n :: responses =>
    let log := .write bytes.length (bytes.take n) :: log
    if n = 0 then (.error .nothingTaken, ⟨responses, flushes, log⟩)
    else if bytes.length ≤ n then (.ok (), ⟨responses, flushes, log⟩)
    else deliver flushes (bytes.drop n) log responses
  | .fail fault :: responses =>
    let log := .write bytes.length [] :: log
    if fault.kind = .interrupted then deliver flushes bytes log responses
    else (.error fault, ⟨responses, flushes, log⟩)

/-- Hands over all of the bytes, without a call if there are none. -/
def writeAll (s : Sink) (bytes : List UInt8) : Except Fault Unit × Sink :=
  if bytes.isEmpty then (.ok (), s) else deliver s.flushes bytes s.log s.responses

/-- Asks the sink once to pass on what it holds. -/
def flush (s : Sink) : Except Fault Unit × Sink :=
  let log := .flush :: s.log
  match s.flushes with
  | [] => (.ok (), { s with log })
  | none :: flushes => (.ok (), { s with flushes, log })
  | some fault :: flushes => (.error fault, { s with flushes, log })

end Sink

end EcmaTree
