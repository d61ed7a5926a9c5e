import ExprMachine.Assembly
import ExprMachine.Machine.Run

/-!
# Texts on a machine

What is done with a whole text: it is run, listed, or assembled and run. What goes wrong with the text
is reported, and the result is an exit status.

* `Machine.runSource` — compile and run;
* `Machine.listSource` — compile and list;
* `Machine.runAssembly` — assemble and run.
-/

namespace ExprMachine.Machine

/-- Compile and run a text, and note the time that took if asked to. -/
def runSource (m : Machine) (source : String) (timing : Bool) : Machine × Nat :=
  match m.compileNoting source with
  | (m, .error d) => (m.report d.render, (Failure.compile d).exitCode)
  | (m, .ok chunk) =>
    let (m, result) := m.runChunk chunk
    let m := if timing then m.note .timed else m
    match result with
    | .ok () => (m, 0)
    | .error e => (m, (Failure.runtime e).exitCode)

/-- Compile a text, and list its chunk under a title. -/
def listSource (m : Machine) (source title : String) : Machine × Option String :=
  match m.compileNoting source with
  | (m, .error d) => (m.report d.render, none)
  | (m, .ok chunk) => (m, some (Listing.chunk chunk m.heap title))

/-- Print text as it is. -/
def print (m : Machine) (text : String) : Machine :=
  { m with output := (m.output.write (Text.Utf8.encode text.toList)).1 }

/-- The exit status for a text that cannot be assembled. -/
def badAssemblyStatus : Nat := 65

/-- Assemble a text and run it, under the title that errors and the listing have. The listing is
printed before the run if asked for. -/
def runAssembly (m : Machine) (text title : String) (listing : Bool) : Machine × Nat :=
  match Assembly.assemble m.heap.id.next text with
  | .error e => (m.report (title ++ ": " ++ e.render), badAssemblyStatus)
  | .ok chunk =>
    let m := if listing then m.print (Listing.chunk chunk m.heap title) else m
    match m.runChunk chunk with
    | (m, .ok ()) => (m, 0)
    | (m, .error e) => (m, (Failure.runtime e).exitCode)

end ExprMachine.Machine
