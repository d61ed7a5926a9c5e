import ExprMachine.Expr.Code
import ExprMachine.Listing
import ExprMachine.Machine.Step

/-!
# Runs

A machine runs a chunk from its first byte to the instruction that prints the result. There are no
jumps, so the recursion is on the code that is left.

* `Machine.runFrom` — the run of the code from an offset on;
* `Machine.runChunk` — a whole run: an empty stack at the start, and again after a failure;
* `Machine.compileNoting` — compiling, recorded in the journal;
* `Machine.interpret` — compiling and running a text;
* `Machine.release` — the end of a machine.
-/

namespace ExprMachine

/-- Why a text gave no result. -/
inductive Failure where
  | compile (d : Diagnostic)
  | runtime (e : RuntimeError)
  deriving DecidableEq, Repr

/-- The exit status for a failure: 65 for bad input, 70 for a failed program. -/
def Failure.exitCode : Failure → Nat
  | compile _ => 65
  | runtime _ => 70

namespace Machine

/-- A new machine whose strings have the identity `id`, with room for `room` bytes of output. -/
def new (id : HeapId) (options : MachineOptions) (room : Option Nat := none) : Machine :=
  { heap := { id }, options, output := { room } }

/-- Report text to the user. -/
def report (m : Machine) (text : String) : Machine := m.note (.report text)

/-! ### Running -/

/-- Note the instruction at an offset, if the machine traces. -/
def trace (m : Machine) (chunk : Chunk) (offset : Nat) : Machine :=
  if m.options.tracing then
    m.note (.event (.instruction (Listing.instruction chunk m.heap offset).1
      (Listing.stack m.stack m.heap)))
  else m

/-- Give up at the instruction at an offset. -/
def fail (m : Machine) (chunk : Chunk) (offset : Nat) (fault : Fault) :
    Machine × Except RuntimeError Unit :=
  let line := chunk.lines.lineAt? offset
  let noted :=
    if fault.isDefect then m.note (.event (.malformed fault.message offset line m.stack.length))
    else m
  (noted, .error ⟨fault.message, line⟩)

/-- Run the code that is left, which begins at an offset. -/
def runFrom (chunk : Chunk) (offset : Nat) (code : List UInt8) (m : Machine) :
    Machine × Except RuntimeError Unit :=
  let m := m.trace chunk offset
  match code with
  | [] => m.fail chunk (offset - 1) .endOfCode
  | byte :: rest =>
    match OpCode.ofByte? byte with
    | none => m.fail chunk offset (.unknownOpcode byte)
    | some op =>
      match op, rest with
      | .constant, index :: rest =>
        match m.pushConstant chunk index with
        | (m, none) => runFrom chunk (offset + 2) rest m
        | (m, some fault) => m.fail chunk offset fault
      | op, rest =>
        match m.execute op with
        | (m, none) => if op = .halt then (m, .ok ()) else runFrom chunk (offset + 1) rest m
        | (m, some fault) => m.fail chunk offset fault

/-- Run a chunk. -/
def runChunk (m : Machine) (chunk : Chunk) : Machine × Except RuntimeError Unit :=
  let m := m.note (.event
    (.runStarted chunk.size chunk.constants.size chunk.lines.latest.length))
  match runFrom chunk 0 chunk.code.toList { m with stack := [] } with
  | (m, .ok ()) => (m.note (.event (.runEnded m.heap.size)), .ok ())
  | (m, .error e) =>
    let m := (m.note (.event (.runFailed e.message e.line))).report e.render
    ({ m with stack := [] }, .error e)

/-! ### Texts -/

/-- Compile a text, and record it. The identity of the chunk's strings is another one than that of
the machine's. -/
def compileNoting (m : Machine) (source : String) : Machine × Except Diagnostic Chunk :=
  let m := m.note (.compileEntered source.utf8ByteSize)
  let compiled := compile m.heap.id.next source
  let event := match compiled with
    | .ok chunk => .compiled chunk.size chunk.constants.size
    | .error d => .compilationFailed d.render
  ((m.note (.event event)).note .compileLeft, compiled)

/-- Compile and run a text. A diagnostic is reported. -/
def interpret (m : Machine) (source : String) : Machine × Except Failure Unit :=
  match m.compileNoting source with
  | (m, .error d) => (m.report d.render, .error (.compile d))
  | (m, .ok chunk) =>
    match m.runChunk chunk with
    | (m, .ok ()) => (m, .ok ())
    | (m, .error e) => (m, .error (.runtime e))

/-- Give up a machine. -/
def release (m : Machine) : Machine :=
  m.note (.event (.released m.heap.size m.heap.allocated))

/-- Take what has been printed and noted so far out of a machine. -/
def drain (m : Machine) : (Array UInt8 × Journal) × Machine :=
  ((m.output.written, m.journal),
    { m with output := { m.output with written := #[] }, journal := #[] })

end Machine

end ExprMachine
