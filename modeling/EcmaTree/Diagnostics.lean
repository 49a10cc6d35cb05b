/-!
# Diagnostics

A diagnostic is a complaint about a place in a program.  A log of diagnostics is
tolerant, and then records what it is told, or strict, and then hands the
complaint back to the one who made it.  What has been recorded stays.
-/

namespace EcmaTree

/-- A complaint about a place in a program. -/
structure Diagnostic where
  /-- The offset of the place. -/
  index : Nat
  line : Nat
  column : Nat
  description : String
  /-- The text of the program, if it is known. -/
  source : Option String
  deriving DecidableEq, Repr

/-- The description with the line in front. -/
def Diagnostic.message (d : Diagnostic) : String :=
  s!"Line {d.line}: {d.description}"

structure DiagnosticLog where
  /-- What has been recorded, in order. -/
  entries : List Diagnostic := []
  tolerant : Bool := false
  /-- The text of the program, which goes into every diagnostic made here. -/
  source : Option String := none
  deriving DecidableEq, Repr, Inhabited

namespace DiagnosticLog

/-- A strict log for a program of which the text is known. -/
def ofSource (source : String) : DiagnosticLog where
  source := some source

/-- A strict log that goes on after given entries. -/
def ofEntries (entries : List Diagnostic) : DiagnosticLog where
  entries := entries

/-- The log made tolerant or strict. -/
def setTolerant (log : DiagnosticLog) (tolerant : Bool) : DiagnosticLog :=
  { log with tolerant }

/-- A diagnostic about the program of the log, which is not recorded. -/
def create (log : DiagnosticLog) (index line column : Nat) (description : String) : Diagnostic :=
  ⟨index, line, column, description, log.source⟩

/-- Records a diagnostic if the log is tolerant, and hands it back otherwise. -/
def tolerate (log : DiagnosticLog) (d : Diagnostic) : Except Diagnostic Unit × DiagnosticLog :=
  if log.tolerant then (.ok (), { log with entries := log.entries ++ [d] }) else (.error d, log)

/-- Makes a diagnostic and records it or hands it back. -/
def report (log : DiagnosticLog) (index line column : Nat) (description : String) :
    Except Diagnostic Unit × DiagnosticLog :=
  log.tolerate (log.create index line column description)

end DiagnosticLog

end EcmaTree
