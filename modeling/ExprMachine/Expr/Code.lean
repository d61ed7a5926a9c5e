import ExprMachine.Chunk
import ExprMachine.Expr.Parser

/-!
# Code of expressions

The code of an expression leaves its value on the stack: first the code of the operands, left before
right, then that of the operator.

* a number or a string ↦ `CONSTANT`, with the next index among the constants
* nil, true, false ↦ their own instructions
* a group ↦ what is inside it
* `a != b`, `a >= b`, `a <= b` ↦ the code of `a == b`, `a < b`, `a > b`, and `NOT`

Every byte has the line of the last token read before the byte was due: for a literal its own, for
an operator that of its right operand's end, for the final `RETURN` the last line of the text.
-/

namespace ExprMachine

/-! ### Literals -/

/-- Add a constant and the instruction that pushes it. -/
def Chunk.writeConstant (chunk : Chunk) (v : Value) (line : Nat) : Chunk :=
  ((chunk.addConstant v).writeOp .constant line).write (UInt8.ofNat chunk.constants.size) line

/-- Add the code that pushes a literal. -/
def Literal.emit (chunk : Chunk) (line : Nat) : Literal → Chunk
  | .nil => chunk.writeOp .pushNil line
  | .bool b => chunk.writeOp (if b then .pushTrue else .pushFalse) line
  | .number x => chunk.writeConstant (.number x) line
  | .string bytes =>
    let (handle, chunk) := chunk.addString bytes
    chunk.writeConstant (.object handle) line

/-! ### Operators -/

/-- The instruction of an operator before an operand. -/
def UnaryOp.code : UnaryOp → OpCode
  | negate => .negate
  | not => .not

/-- The instructions of an operator between operands. -/
def BinaryOp.code : BinaryOp → List OpCode
  | notEqual => [.equal, .not]
  | equal => [.equal]
  | greater => [.greater]
  | greaterEqual => [.less, .not]
  | less => [.less]
  | lessEqual => [.greater, .not]
  | add => [.add]
  | subtract => [.subtract]
  | multiply => [.multiply]
  | divide => [.divide]

/-! ### Expressions -/

/-- Add the code of an expression. -/
def Expr.emit (chunk : Chunk) : Expr → Chunk
  | literal value line => value.emit chunk line
  | group inner _ => inner.emit chunk
  | unary op operand => (operand.emit chunk).writeOp op.code operand.lastLine
  | binary op left right =>
    op.code.foldl (fun chunk code => chunk.writeOp code right.lastLine)
      (right.emit (left.emit chunk))

/-- The chunk of a text that is an expression: its code, and the instruction that prints its value
and ends the run. The chunk's strings have the identity `id`. -/
def compile (id : HeapId) (source : String) : Except Diagnostic Chunk :=
  (parse source.toList).map fun (e, line) => (e.emit (.empty id)).writeOp .halt line

end ExprMachine
