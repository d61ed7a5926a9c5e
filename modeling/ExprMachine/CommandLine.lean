import ExprMachine.CommandLine.Console
import ExprMachine.CommandLine.FileTree
import ExprMachine.CommandLine.History
import ExprMachine.Session
import ExprMachine.Text.Backspace

/-!
# Commands

What the commands do, as functions of the files and the input that they read.

* `Outcome` — an exit status, what is printed, a journal for the error stream and a history file;
* `CommandLine.onFile` — a command that reads a file;
* `Repl` — an interactive session with its prompt and history;
* `Repl.take`, `Repl.play` — a line of it, and all of its lines;
* `CommandLine.perform` — any command;
* `CommandLine.performIn` — any command in a tree of files, and the tree after it;
* `CommandLine.refuse` — what is done where no command is given.
-/

namespace ExprMachine

/-- What a command leaves behind. -/
structure Outcome where
  status : Nat
  output : Array UInt8 := #[]
  journal : Journal := #[]
  history : Option String := none
  deriving DecidableEq, Repr

/-! ### Interactive sessions -/

/-- An interactive session. The prompt and the replies are printed where the machine prints. -/
structure Repl where
  session : Session
  prompt : String
  history : History := {}
  deriving Repr

/-- What there is to do after a line. -/
inductive Repl.Progress where
  /-- Read the next line. -/
  | more
  /-- Leave the session. -/
  | over
  /-- Give up, for the line is not a text. -/
  | broken
  deriving DecidableEq, Repr

namespace Repl

/-- The notice at the beginning of a session. -/
def greeting : Entry :=
  .notice false "clove" "REPL. Type :help for commands, :quit or Ctrl-D to leave."

/-- Print text. -/
def print (r : Repl) (text : String) : Repl :=
  { r with session := { r.session with machine := r.session.machine.print text } }

/-- Take what has been printed and noted so far out of a session. -/
def drain (r : Repl) : (Array UInt8 × Journal) × Repl :=
  let (taken, machine) := r.session.machine.drain
  (taken, { r with session := { r.session with machine } })

/-- A session that waits for its first line. -/
def new (prompt : String) (options : MachineOptions) (history : History) : Repl :=
  let session : Session := { machine := (Machine.new ⟨0⟩ options).note greeting }
  Repl.print { session, prompt, history } prompt

/-- Handle a line. The result says whether it ends the session. -/
def handle (r : Repl) (line : List Char) : Repl × Bool :=
  let (session, response) := r.session.handleLine (String.ofList line)
  let after : Repl := { r with session, history := r.history.add line }
  match response.reply with
  | some reply => (after.print (reply ++ "\n"), response.quits)
  | none => (after, response.quits)

/-- The report about a line that is not a text. -/
def brokenInput : Entry :=
  .report ("error: command failed: readline: " ++ FileError.notTextMessage)

/-- The line that was typed, if the bytes are a text. -/
def typed? (bytes : List UInt8) : Option (List Char) :=
  (Text.Utf8.decode? bytes).map Text.obeyBackspaces

/-- Take a line as it was read, and wait for the next one if there is more to do. -/
def take (r : Repl) (bytes : List UInt8) : Repl × Progress :=
  match typed? bytes with
  | none => (r, .broken)
  | some line =>
    match r.handle line with
    | (r, true) => (r, .over)
    | (r, false) => (r.print r.prompt, .more)

/-- Take lines until one ends the session or none is left. -/
def play (r : Repl) : List (List UInt8) → Repl × Progress
  | [] => (r, .over)
  | bytes :: rest =>
    match r.take bytes with
    | (r, .more) => r.play rest
    | ended => ended

/-- What a session leaves behind: its history, unless it was given up. -/
def finish (r : Repl) (progress : Progress) : Outcome :=
  let m := r.session.machine.release
  if progress = .broken then
    { status := 1, output := m.output.written, journal := m.journal.push brokenInput }
  else
    { status := 0, output := m.output.written, journal := m.journal, history := r.history.file? }

end Repl

namespace CommandLine

/-! ### Files -/

/-- The exit status where a file cannot be read. -/
def unreadableStatus : Nat := 74

/-- A file that cannot be read. -/
def unreadable (path : String) (e : FileError) : Outcome :=
  { status := unreadableStatus
    journal := #[.remark .debug .commandLine ("read failed: " ++ e.detail),
      .notice true "ERROR" ("Could not open file \"" ++ path ++ "\": " ++ e.message ++ ".")] }

/-- What a machine leaves behind when it is given up. -/
def finish (m : Machine) (status : Nat) : Outcome :=
  let m := m.release
  { status, output := m.output.written, journal := m.journal }

/-- Do something with the text of a file. -/
def onFile (read : String → Except FileError (List UInt8)) (path : String)
    (act : String → Outcome) : Outcome :=
  match FileError.asText (read path) with
  | .ok text => act text
  | .error e => unreadable path e

/-- A machine for a command. -/
def machine (trace : Bool) : Machine := .new ⟨0⟩ { tracing := trace }

/-- Run a script. -/
def runScript (path : String) (trace time : Bool) (text : String) : Outcome :=
  let m := (machine trace).note (.remark .info .commandLine ("running " ++ path))
  let (m, status) := m.runSource text time
  finish m status

/-- The exit status where a script is not an expression. -/
def badScriptStatus : Nat := 65

/-- List a script. -/
def listScript (path text : String) : Outcome :=
  match (machine false).listSource text path with
  | (m, some listing) => finish (m.print listing) 0
  | (m, none) => finish m badScriptStatus

/-- Assemble and run a listing. -/
def runListing (path : String) (trace listing : Bool) (text : String) : Outcome :=
  let (m, status) := (machine trace).runAssembly text path listing
  finish m status

/-! ### Commands -/

/-- Do what a command says, with the files, the input and the line history at hand. -/
def perform (read : String → Except FileError (List UInt8)) (input : List UInt8)
    (history : History) : Command → Outcome
  | .run path trace time => onFile read path (runScript path trace time)
  | .disasm path => onFile read path (listScript path)
  | .asm path trace listing => onFile read path (runListing path trace listing)
  | .repl prompt trace =>
    let (r, progress) :=
      (Repl.new prompt { tracing := trace } history).play (Text.lines 10 13 input)
    r.finish progress

/-- Do what a command says in a tree of files. -/
def performIn (tree : FileTree) (environment : Environment) (input : List UInt8)
    (command : Command) : Outcome × FileTree :=
  let folder? := History.folder? environment
  let kept := match folder? with
    | some folder => (tree.read (folder ++ "/" ++ History.fileName)).toOption.getD []
    | none => []
  let outcome := perform tree.read input (.ofFile kept) command
  match folder?, outcome.history with
  | some folder, some content =>
    (outcome, tree.write folder History.fileName (Text.Utf8.encode content.toList))
  | _, _ => (outcome, tree)

/-- The name and the version of the program. -/
def versionText : String := "clove 0.1.0"

/-- How the program is called. -/
def usageText : String :=
  "\n".intercalate [
    "Usage: clove [-v...] [-q] [--color auto|always|never] [PATH]",
    "       clove run PATH [--trace] [--time]",
    "       clove repl [--prompt PROMPT] [--trace]",
    "       clove disasm PATH",
    "       clove asm PATH [--trace] [--disasm]"]

/-- The exit status where the arguments are wrong. -/
def usageStatus : Nat := 2

/-- What is done where no command is given. -/
def refuse : Refusal → Outcome
  | .usage => { status := usageStatus, journal := #[.report usageText] }
  | .help => { status := 0, output := (Text.Utf8.encode (usageText ++ "\n").toList).toArray }
  | .version => { status := 0, output := (Text.Utf8.encode (versionText ++ "\n").toList).toArray }

end CommandLine

end ExprMachine
