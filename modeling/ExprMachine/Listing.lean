import ExprMachine.Chunk

/-!
# Listings

The instructions of a chunk as text, whatever its bytes are.

* `Listing.instruction` — the entry of one offset, with the offset of the next entry;
* `Listing.chunk` — the entries of a whole chunk under a title;
* `Listing.stack` — the values of a stack, bottom first.
-/

namespace ExprMachine.Listing

/-! ### Columns -/

/-- A text with `fill` before it up to a width. -/
def padLeft (fill : Char) (width : Nat) (s : String) : String :=
  String.ofList (List.replicate (width - s.length) fill) ++ s

/-- A text with blanks after it up to a width. -/
def padRight (width : Nat) (s : String) : String :=
  s ++ String.ofList (List.replicate (width - s.length) ' ')

/-- The characters of a value that are shown. -/
def shownLength : Nat := 64

/-- A value as text, cut off with an ellipsis when it is long. -/
def shown (heap : Heap) (v : Value) : String :=
  let text := (heap.display v).toList
  if text.length ≤ shownLength then String.ofList text
  else String.ofList (text.take shownLength) ++ "…"

/-- The heap that tells what a constant is: the chunk's own for its strings, `heap` for any other
value. -/
def ownerOf (chunk : Chunk) (heap : Heap) : Value → Heap
  | .object h => if chunk.objects.owns h then chunk.objects else heap
  | _ => heap

/-! ### Entries -/

/-- The line column: a bar where the byte before has the same line. -/
def lineColumn (chunk : Chunk) (offset : Nat) : String :=
  match chunk.lines.lineAt? offset with
  | none => "   ?"
  | some line =>
    if 0 < offset ∧ chunk.lines.lineAt? (offset - 1) = some line then "   |"
    else padLeft ' ' 4 (toString line)

/-- The text of a constant instruction at an offset, and the number of bytes it takes. -/
def constantText (chunk : Chunk) (heap : Heap) (offset : Nat) : String × Nat :=
  let name := padRight 16 OpCode.constant.mnemonic
  match chunk.code[offset + 1]? with
  | none => (name ++ " <missing operand>", 1)
  | some index =>
    let operand := name ++ " " ++ padLeft ' ' 4 (toString index)
    match chunk.constants[index.toNat]? with
    | some v => (operand ++ " '" ++ shown (ownerOf chunk heap v) v ++ "'", 2)
    | none => (operand ++ " <invalid constant>", 2)

/-- The text of the instruction at an offset, and the number of bytes it takes. -/
def instructionText (chunk : Chunk) (heap : Heap) (offset : Nat) : String × Nat :=
  match chunk.code[offset]? with
  | none => ("<end of chunk>", 1)
  | some byte =>
    match OpCode.ofByte? byte with
    | none => (s!"Unknown opcode {byte}", 1)
    | some .constant => constantText chunk heap offset
    | some op => (op.mnemonic, 1)

/-- The entry of an offset, and the offset of the next entry. -/
def instruction (chunk : Chunk) (heap : Heap) (offset : Nat) : String × Nat :=
  let (text, width) := instructionText chunk heap offset
  (padLeft '0' 4 (toString offset) ++ " " ++ lineColumn chunk offset ++ " " ++ text,
    offset + width)

theorem instructionText_width_pos (chunk : Chunk) (heap : Heap) (offset : Nat) :
    0 < (instructionText chunk heap offset).2 := by
  simp only [instructionText, constantText]
  repeat' split
  all_goals simp

theorem instruction_next_gt (chunk : Chunk) (heap : Heap) (offset : Nat) :
    offset < (instruction chunk heap offset).2 := by
  have h := instructionText_width_pos chunk heap offset
  simp only [instruction]
  omega

/-! ### Whole chunks -/

/-- The entries from an offset to the end of the code. -/
def entries (chunk : Chunk) (heap : Heap) (offset : Nat) : List String :=
  if offset < chunk.size then
    let entry := instruction chunk heap offset
    entry.1 :: entries chunk heap entry.2
  else []
termination_by chunk.size - offset
decreasing_by
  have h := instruction_next_gt chunk heap offset
  omega

/-- The listing of a chunk under its title. -/
def chunk (chunk : Chunk) (heap : Heap) (title : String) : String :=
  s!"== {title} ==\n" ++ String.join ((entries chunk heap 0).map (· ++ "\n"))

/-- The values of a stack, whose top comes first, from bottom to top. -/
def stack (values : List Value) (heap : Heap) : String :=
  String.join (values.reverse.map fun v => "[ " ++ shown heap v ++ " ]")

end ExprMachine.Listing
