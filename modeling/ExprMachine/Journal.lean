/-!
# Journals

What happens during compiling and running, in order. A journal holds text for the user, events for
whoever watches the machine, and remarks and marks that only a log shows.

* `Level`, `Part` — how important an event is, and where in the program it happens;
* `Event` — the events, with `Event.level`, `Event.message` and `Event.fields`;
* `Entry` — an entry of a journal;
* `Journal.reports`, `Journal.events` — the reported text, and the events.
-/

namespace ExprMachine

/-- How important an event is, the most important first. -/
inductive Level where
  | error
  | warn
  | info
  | debug
  | trace
  deriving DecidableEq, Repr

namespace Level

/-- All levels. -/
def all : List Level := [error, warn, info, debug, trace]

/-- The name of a level. -/
def name : Level → String
  | error => "ERROR"
  | warn => "WARN"
  | info => "INFO"
  | debug => "DEBUG"
  | trace => "TRACE"

/-- The place of a level: 1 for the most important. -/
def rank : Level → Nat
  | error => 1
  | warn => 2
  | info => 3
  | debug => 4
  | trace => 5

end Level

/-- The parts of the program. -/
inductive Part where
  | machine
  | compiler
  | commandLine
  | session
  deriving DecidableEq, Repr

/-! ### Events -/

/-- Something to watch. -/
inductive Event where
  /-- A text has become a chunk. -/
  | compiled (bytes constants : Nat)
  /-- A text is no expression. -/
  | compilationFailed (diagnostic : String)
  /-- A run of a chunk begins. -/
  | runStarted (bytes constants lineRuns : Nat)
  /-- An instruction is about to run on a stack. -/
  | instruction (text stack : String)
  /-- Code that no compiler produces has been met. -/
  | malformed (detail : String) (offset : Nat) (line : Option Nat) (depth : Nat)
  /-- A run has failed. -/
  | runFailed (detail : String) (line : Option Nat)
  /-- A run has succeeded. -/
  | runEnded (objects : Nat)
  /-- A machine is given up, and with it everything it allocated. -/
  | released (objects bytes : Nat)
  deriving DecidableEq, Repr

namespace Event

/-- How important an event is. -/
def level : Event → Level
  | malformed .. => .error
  | instruction .. => .trace
  | _ => .debug

/-- Where an event happens. -/
def part : Event → Part
  | compiled .. | compilationFailed _ => .compiler
  | _ => .machine

/-- What an event says. -/
def message : Event → String
  | compiled .. => "chunk compiled"
  | compilationFailed _ => "compilation failed"
  | runStarted .. => "interpret"
  | instruction text _ => text
  | malformed detail .. => "malformed bytecode: " ++ detail
  | runFailed .. => "runtime error"
  | runEnded _ => "interpret ok"
  | released .. => "releasing heap"

/-- A line that may be unknown. -/
def lineText : Option Nat → String
  | some line => s!"Some({line})"
  | none => "None"

/-- The named details of an event. -/
def fields : Event → List (String × String)
  | compiled bytes constants => [("bytes", toString bytes), ("constants", toString constants)]
  | compilationFailed diagnostic => [("diagnostic", diagnostic)]
  | runStarted bytes constants lineRuns =>
    [("bytes", toString bytes), ("constants", toString constants),
      ("line_runs", toString lineRuns)]
  | instruction _ stack => [("stack", stack)]
  | malformed _ offset line depth =>
    [("offset", toString offset), ("line", lineText line), ("depth", toString depth)]
  | runFailed detail line => [("message", detail), ("line", lineText line)]
  | runEnded objects => [("objects", toString objects)]
  | released objects bytes => [("objects", toString objects), ("bytes", toString bytes)]

end Event

/-! ### Entries -/

/-- An entry of a journal. -/
inductive Entry where
  /-- Text for the user, a line break after it. -/
  | report (text : String)
  /-- A line about the program itself, under a heading; `urgent` if it tells of a failure. -/
  | notice (urgent : Bool) (heading text : String)
  /-- Compiling and running took measured time, and the user asked for it. -/
  | timed
  | event (e : Event)
  /-- Something that is for the log alone. -/
  | remark (level : Level) (part : Part) (text : String)
  /-- Compiling a text of `bytes` bytes begins. -/
  | compileEntered (bytes : Nat)
  /-- Compiling ends. -/
  | compileLeft
  deriving DecidableEq, Repr

/-- Entries in order. -/
abbrev Journal := Array Entry

namespace Journal

/-- All reported text. -/
def reports (journal : Journal) : String :=
  String.join (journal.toList.filterMap fun
    | .report text => some (text ++ "\n")
    | _ => none)

/-- All events. -/
def events (journal : Journal) : List Event :=
  journal.toList.filterMap fun
    | .event e => some e
    | _ => none

theorem reports_push_report (journal : Journal) (text : String) :
    reports (journal.push (.report text)) = journal.reports ++ (text ++ "\n") := by
  simp [reports]

theorem events_push_event (journal : Journal) (e : Event) :
    events (journal.push (.event e)) = journal.events ++ [e] := by
  simp [events]

end Journal

end ExprMachine
