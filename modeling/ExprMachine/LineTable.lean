/-!
# Line tables

Which source line each byte of code comes from, kept as runs of equal lines.

* `LineTable.push` — one more byte of a line;
* `LineTable.lineAt?` — the line of the byte at an offset;
* `LineTable.runs` — the runs in order;
* `LineTable.toList` — the table without the encoding: one line per byte, in order.
-/

namespace ExprMachine

/-- Consecutive bytes of one source line. -/
structure LineRun where
  line : Nat
  length : Nat
  deriving DecidableEq, Repr

/-- The runs of a table, latest first, and the number of bytes they cover. -/
structure LineTable where
  latest : List LineRun := []
  size : Nat := 0
  deriving DecidableEq, Repr, Inhabited

namespace LineTable

/-- Record one more byte. It joins the latest run if that has its line, and begins one otherwise. -/
def push (table : LineTable) (line : Nat) : LineTable :=
  { latest := match table.latest with
      | [] => [⟨line, 1⟩]
      | run :: older =>
        if run.line = line then { run with length := run.length + 1 } :: older
        else ⟨line, 1⟩ :: run :: older
    size := table.size + 1 }

/-- The runs in order. -/
def runs (table : LineTable) : List LineRun := table.latest.reverse

/-- The line at an offset into runs that stand latest first and end at `stop`. -/
def lineIn? (offset : Nat) : (latest : List LineRun) → (stop : Nat) → Option Nat
  | [], _ => none
  | run :: older, stop =>
    if stop ≤ offset then none
    else if stop - run.length ≤ offset then some run.line
    else lineIn? offset older (stop - run.length)

/-- The line of the byte at an offset. -/
def lineAt? (table : LineTable) (offset : Nat) : Option Nat :=
  lineIn? offset table.latest table.size

/-! ### The table without its encoding -/

/-- One line for each byte, in order. -/
def toList (table : LineTable) : List Nat :=
  table.runs.flatMap fun run => List.replicate run.length run.line

@[simp]
theorem size_push (table : LineTable) (line : Nat) : (table.push line).size = table.size + 1 := rfl

theorem toList_push (table : LineTable) (line : Nat) :
    (table.push line).toList = table.toList ++ [line] := by
  obtain ⟨latest, size⟩ := table
  cases latest with
  | nil => simp [push, toList, runs]
  | cons run older =>
    simp only [push, toList, runs]
    split
    · rename_i h
      simp [h, List.replicate_succ']
    · simp

end LineTable

end ExprMachine
