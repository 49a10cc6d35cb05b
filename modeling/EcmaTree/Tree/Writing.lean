import EcmaTree.Tree.Events
import EcmaTree.Wire.Writer

/-!
# Writing syntax trees

A tree is written through a writer as its events, after which the sink is
flushed.
-/

namespace EcmaTree

/-- Writes the events of a node and flushes the sink, unless an event is refused. -/
def Writer.writeNode (w : Writer) (n : AnyNode) : Except WriteError Unit × Writer :=
  match w.writeEvents n.events with
  | (.ok (), w') => w'.flush
  | (.error error, w') => (.error error, w')

def AnyNode.encode (n : AnyNode) : Except WriteError (List UInt8) :=
  match (Writer.checked {}).writeNode n with
  | (.ok (), w) => .ok w.sink.accepted
  | (.error error, _) => .error error

end EcmaTree
