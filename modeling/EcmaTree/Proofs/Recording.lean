import EcmaTree.Diagnostics
import Mathlib.Data.List.Induction
import Mathlib.Data.List.Infix

/-!
# What a log records

A log is called in any order: it is made tolerant or strict, asked for
diagnostics, and told diagnostics that come from anywhere.  The calls alone say
what it has recorded in the end.  It is tolerant if the last call that set the
mode said so, and it has recorded what it was told while it was tolerant.

Each call adds at most one entry, behind the others, and none of them changes the
text of the program.  So the record follows from what one call does, by induction
on the calls from the first to the last.
-/

namespace EcmaTree.DiagnosticLog

/-! ## Calls -/

inductive Call where
  | setTolerant (tolerant : Bool)
  | create (index line column : Nat) (description : String)
  | tolerate (d : Diagnostic)
  | report (index line column : Nat) (description : String)
  deriving DecidableEq, Repr

inductive Answer where
  | done
  /-- A diagnostic as it was asked for. -/
  | made (d : Diagnostic)
  /-- The diagnostic that the log was told, handed back. -/
  | refused (d : Diagnostic)
  deriving DecidableEq, Repr

/-- The answer that goes with the outcome of telling a diagnostic. -/
def Answer.ofOutcome : Except Diagnostic Unit → Answer
  | .ok () => .done
  | .error d => .refused d

def call (log : DiagnosticLog) : Call → Answer × DiagnosticLog
  | .setTolerant tolerant => (.done, log.setTolerant tolerant)
  | .create index line column description =>
    (.made (log.create index line column description), log)
  | .tolerate d => (log.tolerate d).map .ofOutcome id
  | .report index line column description =>
    (log.report index line column description).map .ofOutcome id

def after (log : DiagnosticLog) (calls : List Call) : DiagnosticLog :=
  calls.foldl (fun log c => (log.call c).2) log

theorem after_append (log : DiagnosticLog) (calls more : List Call) :
    log.after (calls ++ more) = (log.after calls).after more :=
  List.foldl_append

theorem after_concat (log : DiagnosticLog) (calls : List Call) (c : Call) :
    log.after (calls ++ [c]) = ((log.after calls).call c).2 :=
  log.after_append calls [c]

/-! ## The record according to the calls -/

/-- How a log begins: without anything, with the text of a program, or with
entries. -/
inductive Origin where
  | blank
  | ofSource (source : String)
  | ofEntries (entries : List Diagnostic)
  deriving DecidableEq, Repr

namespace Origin

def log : Origin → DiagnosticLog
  | .blank => {}
  | .ofSource source => DiagnosticLog.ofSource source
  | .ofEntries entries => DiagnosticLog.ofEntries entries

/-- The entries with which a log begins. -/
def seed : Origin → List Diagnostic
  | .ofEntries entries => entries
  | _ => []

/-- The text of the program of a log, if it is known. -/
def text? : Origin → Option String
  | .ofSource source => some source
  | _ => none

end Origin

namespace Call

def mode? : Call → Option Bool
  | .setTolerant tolerant => some tolerant
  | _ => none

/-- The diagnostic that a call tells the log; one that is made for this has the
given text. -/
def told? (text? : Option String) : Call → Option Diagnostic
  | .tolerate d => some d
  | .report index line column description => some ⟨index, line, column, description, text?⟩
  | _ => none

end Call

/-- Whether a log is tolerant after calls; it is strict until a call changes that. -/
def tolerantAfter (calls : List Call) : Bool :=
  (calls.filterMap Call.mode?).getLastD false

/-- The diagnostics that calls tell a log while it is tolerant, in order. -/
def toldWhileTolerant (text? : Option String) (calls : List Call) : List Diagnostic :=
  (List.range calls.length).filterMap fun i =>
    if tolerantAfter (calls.take i) then calls[i]?.bind (Call.told? text?) else none

theorem tolerantAfter_concat (calls : List Call) (c : Call) :
    tolerantAfter (calls ++ [c]) = c.mode?.getD (tolerantAfter calls) := by
  rw [tolerantAfter, List.filterMap_append]
  cases hmode : c.mode? with
  | none => simp [hmode, tolerantAfter]
  | some tolerant => simp [hmode]

theorem toldWhileTolerant_concat (text? : Option String) (calls : List Call) (c : Call) :
    toldWhileTolerant text? (calls ++ [c]) = toldWhileTolerant text? calls ++
      if tolerantAfter calls then (c.told? text?).toList else [] := by
  rw [toldWhileTolerant, List.length_append, List.length_singleton, List.range_succ,
    List.filterMap_append]
  congr 1
  · -- The calls before the last one come after the same calls as before.
    apply List.filterMap_congr
    intro i hi
    have hlt : i < calls.length := List.mem_range.mp hi
    rw [List.take_append_of_le_length hlt.le, List.getElem?_append_left hlt]
  · by_cases htolerant : tolerantAfter calls
    · cases htold : c.told? text? <;> simp [htolerant, htold]
    · simp [htolerant]

/-! ## One call -/

section

variable (log : DiagnosticLog)

theorem snd_tolerate (d : Diagnostic) :
    (log.tolerate d).2 =
      { log with entries := log.entries ++ if log.tolerant then [d] else [] } := by
  rw [tolerate]
  split
  · rfl
  · simp

/-- A call adds what it tells, if the log is tolerant, and sets the mode, if it is
about the mode. -/
theorem snd_call (c : Call) :
    (log.call c).2 =
      ⟨log.entries ++ if log.tolerant then (c.told? log.source).toList else [],
        c.mode?.getD log.tolerant, log.source⟩ := by
  cases c with
  | setTolerant tolerant => simp [call, setTolerant, Call.told?, Call.mode?]
  | create index line column description => simp [call, Call.told?, Call.mode?]
  | tolerate d => exact log.snd_tolerate d
  | report index line column description => exact log.snd_tolerate _

variable {log} {c : Call} {d : Diagnostic}

/-- A call that tells a diagnostic is one on `tolerate`. -/
theorem call_of_told? (h : c.told? log.source = some d) :
    log.call c = (log.tolerate d).map .ofOutcome id := by
  cases c with
  | tolerate d' =>
      cases h
      rfl
  | report index line column description =>
      cases h
      rfl
  | _ => cases h

theorem call_of_strict (h : c.told? log.source = some d) (hstrict : log.tolerant = false) :
    log.call c = (.refused d, log) := by
  rw [call_of_told? h, tolerate, hstrict]
  rfl

theorem call_of_tolerant (h : c.told? log.source = some d) (htolerant : log.tolerant = true) :
    log.call c = (.done, { log with entries := log.entries ++ [d] }) := by
  rw [call_of_told? h, tolerate, htolerant]
  rfl

end

/-! ## All calls -/

/-- The state of a log follows from how it began and from the calls. -/
theorem after_eq (origin : Origin) (calls : List Call) :
    origin.log.after calls =
      ⟨origin.seed ++ toldWhileTolerant origin.text? calls, tolerantAfter calls, origin.text?⟩ := by
  induction calls using List.reverseRecOn with
  | nil =>
      have hnothing : toldWhileTolerant origin.text? [] = [] := rfl
      rw [hnothing, List.append_nil]
      cases origin <;> rfl
  | append_singleton calls c ih =>
      rw [after_concat, snd_call, ih, tolerantAfter_concat, toldWhileTolerant_concat,
        List.append_assoc]

/-- What has been recorded stays in front of what is recorded later. -/
theorem entries_prefix_after (log : DiagnosticLog) (calls : List Call) :
    log.entries <+: (log.after calls).entries := by
  induction calls generalizing log with
  | nil => exact List.prefix_refl _
  | cons c calls ih =>
      have hfirst : log.entries <+: (log.call c).2.entries := by
        rw [snd_call]
        exact List.prefix_append _ _
      exact hfirst.trans (ih (log.call c).2)

/-- A log keeps its record, however it began and whatever the calls.  It holds the
entries with which it began and then those diagnostics that it was told while it
was tolerant, in order; it is tolerant if the calls say so.  Later calls only add
to the record.  A diagnostic told to a strict log is handed back as it is and
changes nothing, and one told to a tolerant log is added.  A diagnostic that the
log makes, for the caller or for itself, has the text of the program of the log
and a message with the line in front of the description. -/
theorem keeps_record (origin : Origin) (calls : List Call) :
    (origin.log.after calls).entries = origin.seed ++ toldWhileTolerant origin.text? calls ∧
    (origin.log.after calls).tolerant = tolerantAfter calls ∧
    (∀ more, (origin.log.after calls).entries <+: (origin.log.after (calls ++ more)).entries) ∧
    (∀ c d, c.told? origin.text? = some d →
      (tolerantAfter calls = false →
        (origin.log.after calls).call c = (.refused d, origin.log.after calls)) ∧
      (tolerantAfter calls = true →
        (origin.log.after calls).call c = (.done, { origin.log.after calls with
          entries := (origin.log.after calls).entries ++ [d] }))) ∧
    ∀ index line column description, ∃ d : Diagnostic,
      d.source = (origin.log.after calls).source ∧ d.source = origin.text? ∧
      d.index = index ∧ d.line = line ∧ d.column = column ∧ d.description = description ∧
      d.message = s!"Line {line}: {description}" ∧
      (origin.log.after calls).call (.create index line column description) =
        (.made d, origin.log.after calls) ∧
      (Call.report index line column description).told? origin.text? = some d := by
  have hsource : (origin.log.after calls).source = origin.text? := by
    rw [after_eq]
  have htolerant : (origin.log.after calls).tolerant = tolerantAfter calls := by
    rw [after_eq]
  refine ⟨by rw [after_eq], htolerant, ?_, ?_, ?_⟩
  · intro more
    rw [after_append]
    exact entries_prefix_after _ more
  · intro c d htold
    rw [← hsource] at htold
    rw [← htolerant]
    exact ⟨call_of_strict htold, call_of_tolerant htold⟩
  · intro index line column description
    refine ⟨⟨index, line, column, description, origin.text?⟩, hsource.symm, rfl, rfl, rfl, rfl, rfl,
      rfl, ?_, rfl⟩
    rw [← hsource]
    rfl

/-- A log that begins with an entry, and is switched from strict to tolerant and
back: the first and the last diagnostic are handed back, the other ones are kept,
one of them twice. -/
theorem keeps_record_switched :
    let seed : Diagnostic := ⟨0, 1, 1, "seed", none⟩
    let foreign : Diagnostic := ⟨7, 2, 3, "foreign", some "var"⟩
    let calls : List Call := [.report 1 1 2 "early", .setTolerant true, .tolerate foreign,
      .report 9 3 0 "kept", .create 4 1 4 "only made", .tolerate foreign, .setTolerant false]
    let log := (Origin.ofEntries [seed]).log.after calls
    log.entries = [seed, foreign, ⟨9, 3, 0, "kept", none⟩, foreign] ∧
      log.call (.tolerate foreign) = (.refused foreign, log) := by
  intro seed foreign calls log
  obtain ⟨hentries, -, -, htold, -⟩ := keeps_record (.ofEntries [seed]) calls
  exact ⟨hentries, (htold (.tolerate foreign) foreign rfl).1 rfl⟩

end EcmaTree.DiagnosticLog
