import ExprMachine.Assembly.Statement
import ExprMachine.Chunk
import ExprMachine.Expr.Code
import ExprMachine.Text.Lines

/-!
# Assembly

The chunk that a listing of statements writes.

* `Assembly.Statement.apply` — what a statement adds to a chunk;
* `Assembly.assemble` — the chunk of a whole text, or its first fault with the number of its line.
-/

namespace ExprMachine.Assembly

/-- The first fault of a text. -/
structure Error where
  line : Nat
  message : String
  deriving DecidableEq, Repr

/-- An error as text. -/
def Error.render (e : Error) : String := s!"line {e.line}: " ++ e.message

/-- The value of a literal, its string added to the chunk. -/
def load (chunk : Chunk) : Literal → Value × Chunk
  | .nil => (.nil, chunk)
  | .bool b => (.bool b, chunk)
  | .number x => (.number x, chunk)
  | .string bytes =>
    let (handle, chunk) := chunk.addString bytes
    (.object handle, chunk)

/-- Add what a statement asks for. Only an instruction that pushes a new constant needs its index to
fit a byte. -/
def Statement.apply (chunk : Chunk) (line : Nat) : Statement → Except Fault Chunk
  | constant value =>
    let (v, chunk) := load chunk value
    .ok (chunk.addConstant v)
  | byte b => .ok (chunk.write b line)
  | .op code => .ok (chunk.writeOp code line)
  | pushIndex index => .ok ((chunk.writeOp .constant line).write index line)
  | pushLiteral value =>
    let (v, chunk) := load chunk value
    if chunk.constants.size < constantLimit then .ok (chunk.writeConstant v line)
    else .error .tooManyConstants

/-- Add the statement of a line. -/
def addLine (chunk : Chunk) (number : Nat) (line : List Char) : Except Fault Chunk :=
  match readLine number line with
  | .error fault => .error fault
  | .ok none => .ok chunk
  | .ok (some (statement, source)) => statement.apply chunk source

/-- Add the statements of lines, the first of which has the number `number`. -/
def addLines (chunk : Chunk) (number : Nat) : List (List Char) → Except Error Chunk
  | [] => .ok chunk
  | line :: rest =>
    match addLine chunk number line with
    | .ok chunk => addLines chunk (number + 1) rest
    | .error fault => .error ⟨number, fault.message⟩

/-- The chunk of a listing. Its strings have the identity `id`. -/
def assemble (id : HeapId) (source : String) : Except Error Chunk :=
  addLines (.empty id) 1 (Text.lines '\n' '\r' source.toList)

end ExprMachine.Assembly
