import ExprMachine.Proofs.Contents
import ExprMachine.Proofs.Turns

/-!
# How listings read code

A listing goes through the code from its beginning to its end. What it says of an instruction
depends on the bytes there and, for a constant, on the heap that knows the constant's string.

* `Chunk.widthAt` — the bytes of an instruction, by the table of instructions; the loop and the
  listing take as many (`fetch_width`, `instructionText_width`);
* `Chunk.sweep` — the offsets that a walk over the code comes to;
* `Listing.Tiles`, `sweep_tiles`, `sweep_flatMap` — they cover the code without gap or overlap;
* `Listing.entries_eq_sweep` — the entries of a listing are those of these offsets;
* `Listing.Reading`, `Listing.reading` — what the entry of a constant says, and `constantText_eq`
  how it says it;
* `Listing.instruction_of_extends` — more strings in the heap do not change an entry.
-/

namespace ExprMachine

/-! ### Widths -/

namespace Chunk

variable (chunk : Chunk)

/-- The bytes of the instruction at an offset: its own and its operand's, unless the code ends
before; a byte that encodes nothing stands alone. -/
def widthAt (offset : Nat) : Nat :=
  match chunk.code[offset]?.bind OpCode.ofByte? with
  | some op => if offset + op.operandWidth < chunk.size then 1 + op.operandWidth else 1
  | none => 1

theorem widthAt_pos (offset : Nat) : 0 < chunk.widthAt offset := by
  unfold widthAt
  split
  · split <;> omega
  · exact Nat.one_pos

variable {chunk} {offset : Nat}

/-- The width of what is not a constant. -/
theorem widthAt_of_operandWidth {byte : UInt8} {op : OpCode} (hbyte : chunk.code[offset]? = some byte)
    (hop : OpCode.ofByte? byte = some op) (hwidth : op.operandWidth = 0) :
    chunk.widthAt offset = 1 := by
  simp only [widthAt, hbyte, Option.bind_some, hop, hwidth]
  split <;> rfl

theorem widthAt_of_constant {byte : UInt8} (hbyte : chunk.code[offset]? = some byte)
    (hop : OpCode.ofByte? byte = some .constant) :
    chunk.widthAt offset = if chunk.code[offset + 1]?.isSome then 2 else 1 := by
  have hindex : chunk.code[offset + 1]?.isSome = true ↔ offset + 1 < chunk.size := by
    rw [Option.isSome_iff_ne_none, Ne, Array.getElem?_eq_none_iff, Nat.not_le]
    exact Iff.rfl
  simp only [widthAt, hbyte, Option.bind_some, hop, hindex]
  rfl

/-- The loop takes as many bytes as the table of instructions says. -/
theorem fetch_width (h : offset < chunk.size) :
    (chunk.fetch offset).width = chunk.widthAt offset := by
  have hbyte : chunk.code[offset]? = some chunk.code[offset] := Array.getElem?_eq_getElem h
  cases hop : OpCode.ofByte? chunk.code[offset] with
  | none => simp only [fetch, widthAt, hbyte, Option.bind_some, hop, Fetched.width]
  | some op =>
    cases op with
    | constant =>
      rw [widthAt_of_constant hbyte hop]
      simp only [fetch, hbyte, hop]
      cases chunk.code[offset + 1]? <;> rfl
    | _ =>
      rw [widthAt_of_operandWidth hbyte hop rfl]
      simp only [fetch, hbyte, hop, Fetched.width]

/-- A listing takes as many bytes as the table of instructions says. -/
theorem instructionText_width (heap : Heap) (h : offset < chunk.size) :
    (Listing.instructionText chunk heap offset).2 = chunk.widthAt offset := by
  have hbyte : chunk.code[offset]? = some chunk.code[offset] := Array.getElem?_eq_getElem h
  cases hop : OpCode.ofByte? chunk.code[offset] with
  | none => simp only [Listing.instructionText, widthAt, hbyte, Option.bind_some, hop]
  | some op =>
    cases op with
    | constant =>
      rw [widthAt_of_constant hbyte hop]
      simp only [Listing.instructionText, Listing.constantText, hbyte, hop]
      cases chunk.code[offset + 1]? with
      | none => rfl
      | some index =>
        simp only [Option.isSome_some, if_true]
        split <;> rfl
    | _ =>
      rw [widthAt_of_operandWidth hbyte hop rfl]
      simp only [Listing.instructionText, hbyte, hop]

theorem instruction_next (heap : Heap) (h : offset < chunk.size) :
    (Listing.instruction chunk heap offset).2 = offset + chunk.widthAt offset :=
  congrArg (offset + ·) (instructionText_width heap h)

theorem add_widthAt_le (h : offset < chunk.size) : offset + chunk.widthAt offset ≤ chunk.size := by
  rw [← fetch_width h]
  exact add_width_le h

/-! ### Walks over the code -/

variable (chunk) in
/-- The offsets of the instructions from an offset on, each after the bytes of the one before. -/
def sweep (offset : Nat) : List Nat :=
  if offset < chunk.size then offset :: sweep (offset + chunk.widthAt offset) else []
termination_by chunk.size - offset
decreasing_by
  have hpos := chunk.widthAt_pos offset
  omega

theorem sweep_of_lt (h : offset < chunk.size) :
    chunk.sweep offset = offset :: chunk.sweep (offset + chunk.widthAt offset) := by
  rw [sweep, if_pos h]

theorem sweep_of_le (h : chunk.size ≤ offset) : chunk.sweep offset = [] := by
  rw [sweep, if_neg (Nat.not_lt.2 h)]

/-- An induction along a walk, from its end. -/
theorem sweep_induction {P : Nat → Prop} (hend : P chunk.size)
    (hstep : ∀ offset, offset < chunk.size → P (offset + chunk.widthAt offset) → P offset)
    (h : offset ≤ chunk.size) : P offset := by
  induction hleft : chunk.size - offset using Nat.strongRecOn generalizing offset with
  | ind left ih =>
    by_cases hlt : offset < chunk.size
    · have hpos := chunk.widthAt_pos offset
      have hle := add_widthAt_le hlt
      exact hstep offset hlt (ih _ (by omega) hle rfl)
    · have heq : offset = chunk.size := by omega
      rw [heq]
      exact hend

theorem mem_sweep (h : offset ≤ chunk.size) :
    ∀ place ∈ chunk.sweep offset, offset ≤ place ∧ place < chunk.size := by
  refine sweep_induction (P := fun offset => ∀ place ∈ chunk.sweep offset,
    offset ≤ place ∧ place < chunk.size) ?_ ?_ h
  · intro place hplace
    rw [sweep_of_le (Nat.le_refl _)] at hplace
    cases hplace
  · intro offset hlt ih place hplace
    rw [sweep_of_lt hlt] at hplace
    rcases List.mem_cons.1 hplace with rfl | hrest
    · exact ⟨Nat.le_refl _, hlt⟩
    · obtain ⟨hle, hsize⟩ := ih place hrest
      exact ⟨by omega, hsize⟩

theorem sweep_pairwise (h : offset ≤ chunk.size) : (chunk.sweep offset).Pairwise (· < ·) := by
  refine sweep_induction (P := fun offset => (chunk.sweep offset).Pairwise (· < ·)) ?_ ?_ h
  · rw [sweep_of_le (Nat.le_refl _)]
    exact .nil
  · intro offset hlt ih
    rw [sweep_of_lt hlt]
    refine .cons ?_ ih
    intro place hplace
    have hpos := chunk.widthAt_pos offset
    have hle := (mem_sweep (add_widthAt_le hlt) place hplace).1
    omega

variable (chunk) in
/-- The bytes of the instruction at an offset. -/
def slice (offset : Nat) : List UInt8 := (chunk.code.toList.drop offset).take (chunk.widthAt offset)

/-- The instructions of a walk, one after the other, are the code. -/
theorem sweep_flatMap (h : offset ≤ chunk.size) :
    (chunk.sweep offset).flatMap chunk.slice = chunk.code.toList.drop offset := by
  refine sweep_induction
    (P := fun offset => (chunk.sweep offset).flatMap chunk.slice = chunk.code.toList.drop offset)
    ?_ ?_ h
  · have hend : chunk.code.toList.drop chunk.size = [] := List.drop_length
    rw [sweep_of_le (Nat.le_refl _), hend]
    rfl
  · intro offset hlt ih
    rw [sweep_of_lt hlt, List.flatMap_cons, ih, slice, ← List.drop_drop]
    exact List.take_append_drop _ _

end Chunk

namespace Listing

/-- Offsets whose entries follow one another without gap or overlap up to the end of the code. -/
inductive Tiles (chunk : Chunk) (heap : Heap) : Nat → List Nat → Prop
  | done : Tiles chunk heap chunk.size []
  | entry {offset : Nat} {rest : List Nat} : offset < (instruction chunk heap offset).2 →
      Tiles chunk heap (instruction chunk heap offset).2 rest →
      Tiles chunk heap offset (offset :: rest)

variable {chunk : Chunk} {offset : Nat}

theorem sweep_tiles (heap : Heap) (h : offset ≤ chunk.size) :
    Tiles chunk heap offset (chunk.sweep offset) := by
  refine Chunk.sweep_induction (P := fun offset => Tiles chunk heap offset (chunk.sweep offset))
    ?_ ?_ h
  · rw [Chunk.sweep_of_le (Nat.le_refl _)]
    exact .done
  · intro offset hlt ih
    rw [Chunk.sweep_of_lt hlt]
    refine .entry (instruction_next_gt chunk heap offset) ?_
    rw [Chunk.instruction_next heap hlt]
    exact ih

/-- The entry of an offset. -/
def entry (chunk : Chunk) (heap : Heap) (offset : Nat) : String :=
  (instruction chunk heap offset).1

/-- A listing has the entries of the offsets of a walk. -/
theorem entries_eq_sweep (heap : Heap) (h : offset ≤ chunk.size) :
    entries chunk heap offset = (chunk.sweep offset).map (entry chunk heap) := by
  refine Chunk.sweep_induction
    (P := fun offset => entries chunk heap offset = (chunk.sweep offset).map (entry chunk heap))
    ?_ ?_ h
  · rw [Chunk.sweep_of_le (Nat.le_refl _), entries, if_neg (Nat.lt_irrefl _)]
    rfl
  · intro offset hlt ih
    have hfirst : entries chunk heap offset = entry chunk heap offset ::
        entries chunk heap (instruction chunk heap offset).2 := by
      rw [entries, if_pos hlt]
      rfl
    rw [Chunk.sweep_of_lt hlt, hfirst, Chunk.instruction_next heap hlt, ih, List.map_cons]

/-! ### Readings of constants -/

/-- What the entry of a constant instruction says of its constant. -/
inductive Reading where
  /-- The code ends before the index. -/
  | missing
  /-- There is no constant of this index. -/
  | invalid (index : UInt8)
  /-- The constant is a string that no heap at hand knows. -/
  | foreign (index : UInt8) (h : Handle)
  | found (index : UInt8) (x : Literal)
  deriving DecidableEq, Repr

/-- What the entry of the constant instruction at an offset says. -/
def reading (chunk : Chunk) (heap : Heap) (offset : Nat) : Reading :=
  match chunk.code[offset + 1]? with
  | none => .missing
  | some index =>
    match chunk.constants[index.toNat]? with
    | none => .invalid index
    | some .nil => .found index .nil
    | some (.bool b) => .found index (.bool b)
    | some (.number x) => .found index (.number x)
    | some (.object h) =>
      match (ownerOf chunk heap (.object h)).get? h with
      | some bytes => .found index (.string bytes)
      | none => .foreign index h

end Listing

/-- A literal as text, the bytes of a string read as UTF-8 as far as they are. -/
def Literal.display : Literal → String
  | nil => "nil"
  | bool b => if b then "true" else "false"
  | number x => String.ofList x.toText
  | string bytes => String.ofList (Text.Utf8.decodeLossy bytes)

theorem Heap.display_of_literal? {heap : Heap} {v : Value} {x : Literal}
    (hv : heap.literal? v = some x) : heap.display v = x.display := by
  cases means_of_literal? hv with
  | nil | bool b | number y => rfl
  | string hs => simp only [display, hs, Literal.display]

namespace Listing

/-- A text cut off with an ellipsis when it is long. -/
def cutOff (s : String) : String :=
  if s.toList.length ≤ shownLength then String.ofList s.toList
  else String.ofList (s.toList.take shownLength) ++ "…"

namespace Reading

/-- The bytes that are read. -/
def width : Reading → Nat
  | missing => 1
  | _ => 2

/-- The name of the instruction, and the index. -/
def operandText (index : UInt8) : String :=
  padRight 16 OpCode.constant.mnemonic ++ " " ++ padLeft ' ' 4 (toString index)

/-- The wording of a reading. -/
def text : Reading → String
  | missing => padRight 16 OpCode.constant.mnemonic ++ " <missing operand>"
  | invalid index => operandText index ++ " <invalid constant>"
  | foreign index h => operandText index ++ " '" ++ cutOff (Heap.foreignText h) ++ "'"
  | found index x => operandText index ++ " '" ++ cutOff x.display ++ "'"

/-- What is wrong, in the machine's terms. -/
def fault? : Reading → Option Fault
  | missing => some .missingOperand
  | invalid index => some (.invalidConstant index)
  | foreign index _ => some (.foreignConstant index)
  | found _ _ => none

end Reading

/-- The entry of a constant is the wording of its reading. -/
theorem constantText_eq (chunk : Chunk) (heap : Heap) (offset : Nat) :
    constantText chunk heap offset =
      ((reading chunk heap offset).text, (reading chunk heap offset).width) := by
  unfold constantText reading
  cases chunk.code[offset + 1]? with
  | none => rfl
  | some index =>
    cases hv : chunk.constants[index.toNat]? with
    | none => simp only [hv]; rfl
    | some v =>
      cases v with
      | nil | bool b | number x => simp only [hv]; rfl
      | object h =>
        simp only [hv]
        cases hget : (ownerOf chunk heap (.object h)).get? h with
        | none =>
          have hdisplay : (ownerOf chunk heap (.object h)).display (.object h) =
              Heap.foreignText h := by simp only [Heap.display, hget]
          simp only [shown, hdisplay]
          rfl
        | some bytes =>
          have hdisplay : (ownerOf chunk heap (.object h)).display (.object h) =
              (Literal.string bytes).display := by simp only [Heap.display, hget, Literal.display]
          simp only [shown, hdisplay]
          rfl

/-- The index is read, if there is one. -/
theorem reading_width {chunk : Chunk} {offset : Nat} {index : UInt8}
    (h : chunk.code[offset + 1]? = some index) (heap : Heap) :
    (reading chunk heap offset).width = 2 := by
  unfold reading
  rw [h]
  simp only
  repeat' split
  all_goals rfl

/-! ### Growing heaps -/

/-- A reading stays what it is while the heap grows, if all handles of the heap were issued
before. -/
theorem reading_of_extends {chunk : Chunk} {heap grown : Heap} (h : heap.Extends grown)
    (hissued : ∀ k, .object k ∈ chunk.constants → k.heap = heap.id → heap.owns k = true)
    (offset : Nat) : reading chunk grown offset = reading chunk heap offset := by
  unfold reading
  cases chunk.code[offset + 1]? with
  | none => rfl
  | some index =>
    cases hv : chunk.constants[index.toNat]? with
    | none => simp only [hv]
    | some v =>
      cases v with
      | nil | bool b | number x => simp only [hv]
      | object k =>
        have hmem : .object k ∈ chunk.constants := Array.mem_of_getElem? hv
        have hget : (ownerOf chunk grown (.object k)).get? k =
            (ownerOf chunk heap (.object k)).get? k := by
          simp only [ownerOf]
          cases chunk.objects.owns k with
          | true => rfl
          | false =>
            simp only [Bool.false_eq_true, if_false]
            by_cases hid : k.heap = heap.id
            · obtain ⟨bytes, hbytes⟩ := Heap.owns_iff_exists_get?.1 (hissued k hmem hid)
              rw [hbytes, h.get? hbytes]
            · have hid' : ¬ k.heap = grown.id := by rwa [h.id_eq]
              rw [Heap.get?, Heap.get?, if_neg hid, if_neg hid']
        simp only [hv, hget]

/-- So does an entry. -/
theorem instruction_of_extends {chunk : Chunk} {heap grown : Heap} (h : heap.Extends grown)
    (hissued : ∀ k, .object k ∈ chunk.constants → k.heap = heap.id → heap.owns k = true)
    (offset : Nat) : instruction chunk grown offset = instruction chunk heap offset := by
  have hconstant : constantText chunk grown offset = constantText chunk heap offset := by
    rw [constantText_eq, constantText_eq, reading_of_extends h hissued]
  have htext : instructionText chunk grown offset = instructionText chunk heap offset := by
    unfold instructionText
    rw [hconstant]
  simp only [instruction, htext]

end Listing

end ExprMachine
