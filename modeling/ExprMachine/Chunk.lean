import ExprMachine.Heap
import ExprMachine.LineTable
import ExprMachine.OpCode

/-!
# Chunks

A chunk is a program: code bytes with their source lines, the constants they name, and a heap that
owns the constants' strings.

* `Chunk.write`, `Chunk.writeOp` — one more byte of code;
* `Chunk.addConstant`, `Chunk.addString` — one more constant, one more string;
* `Chunk.lineAt`, `Chunk.constantAt` — what stands at an offset or an index, or a `RangeError`.
-/

namespace ExprMachine

/-- An index past the end of a chunk's code or constants. -/
inductive RangeError where
  | offset (position size : Nat)
  | constant (index size : Nat)
  deriving DecidableEq, Repr

/-- The wording of a range error. -/
def RangeError.message : RangeError → String
  | .offset position size => s!"offset {position} is out of range (chunk holds {size} bytes)"
  | .constant index size =>
    s!"constant index {index} is out of range (pool holds {size} constants)"

/-- The line of the byte at an offset. -/
def LineTable.lineAt (table : LineTable) (offset : Nat) : Except RangeError Nat :=
  match table.lineAt? offset with
  | some line => .ok line
  | none => .error (.offset offset table.size)

/-- A program. -/
structure Chunk where
  code : Array UInt8 := #[]
  lines : LineTable := {}
  constants : Array Value := #[]
  objects : Heap
  deriving Repr, Inhabited

namespace Chunk

/-- The chunk without code, whose strings will have the identity `id`. -/
def empty (id : HeapId) : Chunk := { objects := { id } }

/-- The number of code bytes. -/
def size (chunk : Chunk) : Nat := chunk.code.size

/-- Add a code byte of a source line. -/
def write (chunk : Chunk) (byte : UInt8) (line : Nat) : Chunk :=
  { chunk with code := chunk.code.push byte, lines := chunk.lines.push line }

/-- Add an instruction of a source line. -/
def writeOp (chunk : Chunk) (op : OpCode) (line : Nat) : Chunk := chunk.write op.toByte line

/-- Add a constant. Its index is the number of constants before it. -/
def addConstant (chunk : Chunk) (v : Value) : Chunk :=
  { chunk with constants := chunk.constants.push v }

/-- Add a string, without making it a constant. -/
def addString (chunk : Chunk) (bytes : List UInt8) : Handle × Chunk :=
  let (handle, objects) := chunk.objects.alloc bytes
  (handle, { chunk with objects })

/-- The source line of the byte at an offset. -/
def lineAt (chunk : Chunk) (offset : Nat) : Except RangeError Nat := chunk.lines.lineAt offset

/-- The constant at an index. -/
def constantAt (chunk : Chunk) (index : Nat) : Except RangeError Value :=
  match chunk.constants[index]? with
  | some v => .ok v
  | none => .error (.constant index chunk.constants.size)

/-- Equality of chunks: the same code, lines and strings, and constants that are identical as
values. A chunk with a NaN among its constants differs from itself. -/
def identical (a b : Chunk) : Bool :=
  a.code == b.code && a.lines == b.lines && a.objects == b.objects &&
    a.constants.size == b.constants.size &&
    (a.constants.toList.zip b.constants.toList).all fun (v, w) => v.identical w

/-! ### The code and its lines keep in step -/

@[simp]
theorem size_write (chunk : Chunk) (byte : UInt8) (line : Nat) :
    (chunk.write byte line).size = chunk.size + 1 := by
  simp [write, size]

@[simp]
theorem lines_size_write (chunk : Chunk) (byte : UInt8) (line : Nat) :
    (chunk.write byte line).lines.size = chunk.lines.size + 1 := rfl

end Chunk

end ExprMachine
