import ExprMachine.CommandLine
import ExprMachine.Duration

/-!
# The program

The program reads its arguments, its environment, files and lines, and shows what the commands make
of them. What a command does is decided elsewhere.
-/

namespace ExprMachine.Program

/-! ### Surroundings -/

/-- The part of the environment that the program depends on. -/
def environment : IO Environment :=
  ["RUST_LOG", "RUST_LOG_STYLE", "NO_COLOR", "CLICOLOR_FORCE", "HOME",
    "XDG_DATA_HOME"].filterMapM fun name => do return (← IO.getEnv name).map (name, ·)

/-- The number of an error, which the system gives with either sign. -/
def errorNumber (code : UInt32) : Nat := min code.toNat (-code).toNat

/-- Why a file could not be read. -/
def fileError : IO.Error → FileError
  | .noFileOrDirectory _ _ _ => .missing
  | .inappropriateType _ code _ => if errorNumber code = 20 then .notFolder else .isFolder
  | .permissionDenied _ _ _ => .denied
  | .invalidArgument _ code text =>
    if errorNumber code = 36 then .nameTooLong else .unknown text
  | e => .unknown (toString e)

/-- The content of a file. -/
def readFile (path : String) : IO (Except FileError (List UInt8)) := do
  try
    return .ok (← IO.FS.readBinFile path).toList
  catch e =>
    return .error (fileError e)

/-- The line history of earlier sessions. -/
def loadHistory : IO History := do
  match History.folder? (← environment) with
  | none => return {}
  | some folder =>
    match ← readFile (folder ++ "/" ++ History.fileName) with
    | .ok bytes => return .ofFile bytes
    | .error _ => return {}

/-- Keep the line history. A history that cannot be kept is let go. -/
def saveHistory (content : String) : IO Unit := do
  if let some folder := History.folder? (← environment) then
    try
      IO.FS.createDirAll folder
      IO.FS.writeFile (folder ++ "/" ++ History.fileName) content
    catch _ => return

/-- The bytes of a line and its end, or none where the input has ended. -/
partial def readLine (input : IO.FS.Stream) (bytes : ByteArray) : IO (List UInt8) := do
  let next ← input.read 1
  let bytes := bytes ++ next
  if next.isEmpty || next.toList = [Machine.lineFeed] then return bytes.toList
  else readLine input bytes

/-! ### Showing -/

/-- Print bytes and show a journal. -/
def deliver (console : Console) (output : Array UInt8) (journal : Journal) : IO Unit := do
  let out ← IO.getStdout
  out.write ⟨output⟩
  out.flush
  let err ← IO.getStderr
  err.putStr (console.render journal)
  err.flush

/-- The times that compiling a text and running it take on a machine. Machines are values, so that
this leaves no trace on the machine. -/
def measure (m : Machine) (text : String) : IO String := do
  let start ← IO.monoNanosNow
  let (m, compiled) ← IO.lazyPure fun _ => m.compileNoting text
  let middle ← IO.monoNanosNow
  if let .ok chunk := compiled then
    discard <| IO.lazyPure fun _ => m.runChunk chunk
  let stop ← IO.monoNanosNow
  let compiling := (Duration.ofNanoseconds (middle - start)).text
  let running := (Duration.ofNanoseconds (stop - middle)).text
  return s!"compile: {compiling}, run: {running}"

/-! ### Commands -/

/-- The times that a command reports, if it does. -/
def timesOf (content : Except FileError (List UInt8)) : Command → IO String
  | .run _ trace true =>
    match FileError.asText content with
    | .ok text => measure (CommandLine.machine trace) text
    | .error _ => return ""
  | _ => return ""

/-- The times of a line, if a session reports them. -/
def timesOfLine (s : Session) (line : List UInt8) : IO String :=
  match s.timing, Repl.typed? line with
  | true, some text => measure s.machine (String.ofList text)
  | _, _ => return ""

/-- Hold a session until its end, and give what it leaves behind at last. -/
partial def converse (console : Console) (input : IO.FS.Stream) (r : Repl) :
    IO (Console × Outcome) := do
  let ((output, journal), r) := r.drain
  deliver console output journal
  match Text.lines 10 13 (← readLine input .empty) with
  | [] => return (console, r.finish .over)
  | line :: _ =>
    let console := { console with times := ← timesOfLine r.session line }
    match r.take line with
    | (r, .more) => converse console input r
    | (r, progress) => return (console, r.finish progress)

/-- Do what a command says. -/
def obey (console : Console) (command : Command) : IO (Console × Outcome) := do
  match command, command.path? with
  | .repl prompt trace, _ =>
    converse console (← IO.getStdin) (.new prompt { tracing := trace } (← loadHistory))
  | _, some path =>
    let content ← readFile path
    let console := { console with times := ← timesOf content command }
    return (console, CommandLine.perform (fun _ => content) [] {} command)
  | _, none => return (console, CommandLine.refuse .usage)

/-- Do what the arguments ask for. The result is the exit status. -/
def run (arguments : List String) : IO UInt32 := do
  let (console, outcome) ← match Arguments.read arguments with
    | .error refusal => pure ({}, CommandLine.refuse refusal)
    | .ok invocation =>
      let (console, warnings) := Console.of (← environment) invocation ""
      for warning in warnings do
        IO.eprintln warning
      obey console invocation.command
  deliver console outcome.output outcome.journal
  if let some content := outcome.history then
    saveHistory content
  return outcome.status.toUInt32

end ExprMachine.Program

/-- The program. -/
def main (arguments : List String) : IO UInt32 := ExprMachine.Program.run arguments
