import ExprMachine.Machine.Source
import ExprMachine.Text.Blank

/-!
# Interactive sessions

A session reads lines. A line that begins with a colon is a command to the session, any other line
that is not blank is compiled and run on the session's machine, which lives on after errors.

* `Response` — the reply to a command, and whether the session is over;
* `Session.handleLine` — one line: the session after it, and what it leads to.
-/

namespace ExprMachine

/-! ### Sessions -/

/-- A session: its machine, the last line it tried to run, and whether it reports times. -/
structure Session where
  machine : Machine
  lastSource : Option String := none
  timing : Bool := false
  deriving Repr, Inhabited

/-- What a line leads to. -/
structure Response where
  reply : Option String := none
  quits : Bool := false
  deriving DecidableEq, Repr, Inhabited

namespace Session

/-- The reply to a call for help. -/
def helpText : String :=
  "\n".intercalate [
    "REPL commands:",
    "  :help          show this help",
    "  :quit / :q     leave the session",
    "  :disasm        disassemble the last line compiled",
    "  :time [on|off] report compile/run time per line",
    "Anything else is compiled and run as an expression."]

/-- The title of a listing in a session. -/
def listingTitle : String := "<repl>"

/-- List the last line that was run. -/
def listLast (s : Session) : Session × Response :=
  match s.lastSource with
  | none => (s, { reply := some "(nothing compiled yet)" })
  | some source =>
    let (machine, listing) := s.machine.listSource source listingTitle
    ({ s with machine },
      { reply := listing.map fun text => String.ofList (Text.trimEnd text.toList) })

/-- Ask for times, stop asking, or tell which of the two holds. -/
def setTiming (s : Session) (argument : String) : Session × Response :=
  if argument = "" then (s, { reply := some ("time = " ++ if s.timing then "on" else "off") })
  else if argument = "on" then ({ s with timing := true }, { reply := some "time -> on" })
  else if argument = "off" then ({ s with timing := false }, { reply := some "time -> off" })
  else (s, { reply := some "usage: :time [on|off]" })

/-- Obey a command, which is a line without the blanks around it. -/
def command (s : Session) (line : List Char) : Session × Response :=
  let (head, rest) := Text.firstWord line
  let name := String.ofList head
  if name = ":q" ∨ name = ":quit" then (s, { quits := true })
  else if name = ":help" then (s, { reply := some helpText })
  else if name = ":disasm" then s.listLast
  else if name = ":time" then s.setTiming (String.ofList (Text.firstWord rest).1)
  else (s, { reply := some ("unknown command: " ++ name ++ ". Type :help") })

/-- Run a line as it is. -/
def runLine (s : Session) (line : String) : Session :=
  let (machine, status) := s.machine.runSource line s.timing
  let remark := Entry.remark .debug .session s!"repl line finished with status {status}"
  { s with machine := machine.note remark, lastSource := some line }

/-- Handle a line. -/
def handleLine (s : Session) (line : String) : Session × Response :=
  match Text.trim line.toList with
  | [] => (s, {})
  | ':' :: rest => s.command (':' :: rest)
  | _ => (s.runLine line, {})

end Session

end ExprMachine
