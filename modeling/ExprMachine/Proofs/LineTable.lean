import ExprMachine.Chunk

/-!
# What a line table answers

A lookup walks over runs; without the encoding it is a lookup in the list of lines, one for each
byte.

* `LineTable.Counted` — the table's size is the number of bytes that its runs cover;
* `LineTable.lineAt?_eq_getElem?` — a lookup in a counted table is one in its list;
* `Chunk.InStep` — every code byte has a line; each operation on chunks keeps that.
-/

namespace ExprMachine

namespace LineTable

/-- The size of a table is the number of bytes that its runs cover. -/
def Counted (table : LineTable) : Prop := table.size = table.toList.length

theorem counted_empty : Counted {} := rfl

theorem Counted.push {table : LineTable} (h : table.Counted) (line : Nat) :
    (table.push line).Counted := by
  unfold Counted at h ⊢
  rw [size_push, toList_push, List.length_append, List.length_singleton, h]

/-! ### Lookups -/

/-- The lines of runs that stand latest first, in the order of the bytes. -/
def linesOf (latest : List LineRun) : List Nat :=
  latest.reverse.flatMap fun run => List.replicate run.length run.line

theorem linesOf_cons (run : LineRun) (older : List LineRun) :
    linesOf (run :: older) = linesOf older ++ List.replicate run.length run.line := by
  simp [linesOf]

theorem lineIn?_eq_getElem? (offset : Nat) (latest : List LineRun) :
    lineIn? offset latest (linesOf latest).length = (linesOf latest)[offset]? := by
  induction latest with
  | nil => rfl
  | cons run older ih =>
    have hlength : (linesOf (run :: older)).length = (linesOf older).length + run.length := by
      rw [linesOf_cons, List.length_append, List.length_replicate]
    have hstart : (linesOf (run :: older)).length - run.length = (linesOf older).length := by
      omega
    unfold lineIn?
    rw [hstart, ih]
    split
    · rename_i hpast
      rw [List.getElem?_eq_none hpast]
    split
    · rename_i hpast hin
      rw [linesOf_cons, List.getElem?_append_right hin, List.getElem?_replicate,
        if_pos (by omega)]
    · rename_i hbefore
      rw [linesOf_cons, List.getElem?_append_left (by omega)]

/-- A lookup in a counted table is one in the list of lines. -/
theorem lineAt?_eq_getElem? {table : LineTable} (h : table.Counted) (offset : Nat) :
    table.lineAt? offset = table.toList[offset]? := by
  unfold lineAt?
  rw [h]
  exact lineIn?_eq_getElem? offset table.latest

end LineTable

/-! ### Chunks -/

namespace Chunk

/-- Every code byte has a line, and there are no other lines. -/
structure InStep (chunk : Chunk) : Prop where
  counted : chunk.lines.Counted
  size_eq : chunk.lines.size = chunk.size

theorem inStep_empty (id : HeapId) : (empty id).InStep := ⟨LineTable.counted_empty, rfl⟩

theorem InStep.write {chunk : Chunk} (h : chunk.InStep) (byte : UInt8) (line : Nat) :
    (chunk.write byte line).InStep :=
  ⟨h.counted.push line, by rw [lines_size_write, size_write, h.size_eq]⟩

theorem InStep.addConstant {chunk : Chunk} (h : chunk.InStep) (v : Value) :
    (chunk.addConstant v).InStep := ⟨h.counted, h.size_eq⟩

theorem InStep.addString {chunk : Chunk} (h : chunk.InStep) (bytes : List UInt8) :
    (chunk.addString bytes).2.InStep := ⟨h.counted, h.size_eq⟩

theorem InStep.length_toList {chunk : Chunk} (h : chunk.InStep) :
    chunk.lines.toList.length = chunk.size := by
  rw [← h.counted, h.size_eq]

/-- The line of every code byte is known. -/
theorem InStep.lineAt?_isSome {chunk : Chunk} (h : chunk.InStep) {offset : Nat}
    (hlt : offset < chunk.size) : (chunk.lines.lineAt? offset).isSome := by
  rw [← h.length_toList] at hlt
  rw [LineTable.lineAt?_eq_getElem? h.counted, List.getElem?_eq_getElem hlt, Option.isSome_some]

end Chunk

end ExprMachine
