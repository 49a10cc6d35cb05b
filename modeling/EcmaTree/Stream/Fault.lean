/-!
# Faults of byte streams

A fault has a kind, which decides whether an operation is tried again, and a
message, which is its text.
-/

namespace EcmaTree

/-- The kinds of fault that a byte stream reports. -/
inductive FaultKind where
  | interrupted
  | unexpectedEof
  /-- Any other kind; none of them is treated differently from the rest. -/
  | other (name : String)
  deriving DecidableEq, Repr

namespace FaultKind

def name : FaultKind → String
  | .interrupted => "Interrupted"
  | .unexpectedEof => "UnexpectedEof"
  | .other s => s

def ofName : String → FaultKind
  | "Interrupted" => .interrupted
  | "UnexpectedEof" => .unexpectedEof
  | s => .other s

end FaultKind

/-- A failed call on a byte stream. -/
structure Fault where
  kind : FaultKind
  message : String
  deriving DecidableEq, Repr

/-- The fault of a sink that takes no byte at all. -/
def Fault.nothingTaken : Fault :=
  ⟨.other "WriteZero", "failed to write whole buffer"⟩

/-- The fault of a source that ends before the bytes that are asked for. -/
def Fault.endOfData : Fault :=
  ⟨.unexpectedEof, "failed to fill whole buffer"⟩

end EcmaTree
