import ExprMachine.Proofs.PostOrder

/-!
# Code in its place

What can be said of the code of a tree that stands somewhere in a larger chunk: its bytes have their
lines there, and its constants are found by the indices that it names.

* `PartAt` — a part of a list, at a position;
* `Loaded` — code with its lines and constants stands at its places in a chunk;
* `Loaded.left`, `Loaded.right` — so do its parts;
* `program_loaded` — the code of a tree stands at the beginning of its program.
-/

namespace ExprMachine

/-! ### Parts of lists -/

/-- A part of a list, from a position on. -/
def PartAt {α : Type} (whole : List α) (position : Nat) (part : List α) : Prop :=
  part <+: whole.drop position

section PartAt

variable {α : Type} {whole part part' : List α} {position : Nat}

theorem PartAt.left (h : PartAt whole position (part ++ part')) : PartAt whole position part :=
  (List.prefix_append part part').trans h

theorem PartAt.right (h : PartAt whole position (part ++ part')) :
    PartAt whole (position + part.length) part' := by
  obtain ⟨more, hmore⟩ := h
  refine ⟨more, ?_⟩
  rw [← List.drop_drop, ← hmore, List.append_assoc, List.drop_left]

theorem PartAt.getElem? (h : PartAt whole position part) {i : Nat} (hlt : i < part.length) :
    whole[position + i]? = part[i]? := by
  obtain ⟨more, hmore⟩ := h
  rw [← List.getElem?_drop, ← hmore, List.getElem?_append_left hlt]

end PartAt

/-! ### Parts of chunks -/

/-- Lines of code bytes stand from an offset on in a chunk, and constants from an index on, which
one byte can hold. -/
structure Loaded (chunk : Chunk) (offset index : Nat) (code : List (UInt8 × Nat))
    (pool : List Literal) : Prop where
  lines : PartAt chunk.lines.toList offset (code.map Prod.snd)
  constants : PartAt (chunk.constants.toList.map chunk.objects.literal?) index (pool.map some)
  index_le : index + pool.length ≤ 256

namespace Loaded

variable {chunk : Chunk} {offset index : Nat} {code code' : List (UInt8 × Nat)}
  {pool pool' : List Literal} {line : Nat}

theorem left (h : Loaded chunk offset index (code ++ code') (pool ++ pool')) :
    Loaded chunk offset index code pool := by
  obtain ⟨hlines, hconstants, hle⟩ := h
  rw [List.map_append] at hlines hconstants
  rw [List.length_append] at hle
  exact ⟨hlines.left, hconstants.left, by omega⟩

theorem right (h : Loaded chunk offset index (code ++ code') (pool ++ pool')) :
    Loaded chunk (offset + code.length) (index + pool.length) code' pool' := by
  obtain ⟨hlines, hconstants, hle⟩ := h
  rw [List.map_append] at hlines hconstants
  rw [List.length_append] at hle
  refine ⟨?_, ?_, by omega⟩
  · simpa using hlines.right
  · simpa using hconstants.right

theorem code_left (h : Loaded chunk offset index (code ++ code') pool) :
    Loaded chunk offset index code pool := by
  rw [← List.append_nil pool] at h
  exact h.left

/-- The line of a code byte is the one that stands with it. -/
theorem lineAt? (h : Loaded chunk offset index code pool) (hcounted : chunk.lines.Counted)
    {i : Nat} {byte : UInt8} (hcode : code[i]? = some (byte, line)) :
    chunk.lines.lineAt? (offset + i) = some line := by
  obtain ⟨hlt, -⟩ := List.getElem?_eq_some_iff.1 hcode
  rw [LineTable.lineAt?_eq_getElem? hcounted, h.lines.getElem? (by simpa using hlt),
    List.getElem?_map, hcode, Option.map_some]

/-- Instructions of one line, after other code, have that line. -/
theorem lineAt?_instructions (codes : List OpCode)
    (h : Loaded chunk offset index (code ++ codes.map fun op => (op.toByte, line)) pool)
    (hcounted : chunk.lines.Counted) {i : Nat} (hlt : i < codes.length) :
    chunk.lines.lineAt? (offset + code.length + i) = some line := by
  have hcode : (code ++ codes.map fun op => (op.toByte, line))[code.length + i]? =
      some (codes[i].toByte, line) := by
    rw [List.getElem?_append_right (Nat.le_add_right _ _), Nat.add_sub_cancel_left,
      List.getElem?_map, List.getElem?_eq_getElem hlt, Option.map_some]
  rw [Nat.add_assoc]
  exact h.lineAt? hcounted hcode

/-- The first constant is found by its index, which is its number. -/
theorem constant {x : Literal} (h : Loaded chunk offset index code [x]) :
    chunk.constants[(UInt8.ofNat index).toNat]?.bind chunk.objects.literal? = some x := by
  have hbyte : (UInt8.ofNat index).toNat = index :=
    UInt8.toNat_ofNat_of_lt' (Nat.lt_of_succ_le h.index_le)
  have hconstant : (chunk.constants.toList.map chunk.objects.literal?)[index]? = some (some x) :=
    h.constants.getElem? Nat.one_pos
  rw [List.getElem?_map, Array.getElem?_toList] at hconstant
  obtain ⟨v, hv, hx⟩ := Option.map_eq_some_iff.1 hconstant
  rw [hbyte, hv]
  exact hx

end Loaded

/-- The code of a tree stands at the beginning of its program. -/
theorem program_loaded (e : Expr) (id : HeapId) (line : Nat) (hpool : e.pooled.length ≤ 256) :
    Loaded (e.program id line) 0 0 (e.postOrder 0) e.pooled where
  lines := by
    rw [program_lines, Expr.programCode, List.map_append]
    exact List.prefix_append _ _
  constants := by
    rw [program_constants]
    exact List.prefix_rfl
  index_le := by omega

end ExprMachine
