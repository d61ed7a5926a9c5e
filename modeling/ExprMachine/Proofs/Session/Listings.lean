import ExprMachine.Proofs.Independence
import ExprMachine.Proofs.Sweep
import ExprMachine.Proofs.Text

/-!
# Listings of compiled texts

A compiled chunk owns the strings among its constants, so its listing says the same in whatever
company it is made.

* `Listing.reading_of_pool` — an entry reads the literals that the constants stand for;
* `Listing.chunk_of_sameProgram` — the listings of one program are one text;
* `Listing.EndsSolid` — a text that ends in something seen, as all entries do;
* `Listing.trimEnd_chunk` — trimming a listing takes its last line break and nothing else.
-/

namespace ExprMachine.Listing

/-! ### The same program -/

/-- An entry reads the literal that a constant stands for, whatever heap is at hand. -/
theorem reading_of_pool {c : Chunk} {constants : List Literal} (hpool : c.Pool constants)
    (heap : Heap) (offset : Nat) :
    reading c heap offset =
      match c.code[offset + 1]? with
      | none => .missing
      | some index =>
        match constants[index.toNat]? with
        | none => .invalid index
        | some x => .found index x := by
  unfold reading
  cases c.code[offset + 1]? with
  | none => rfl
  | some index =>
    cases hx : constants[index.toNat]? with
    | none => simp only [hpool.getElem?_eq_none hx, hx]
    | some x =>
      obtain ⟨v, hv, hliteral⟩ := hpool.getElem?_eq_some hx
      simp only [hv, hx]
      cases Heap.means_of_literal? hliteral with
      | nil | bool b | number y => rfl
      | @string h bytes hbytes =>
        have howns : c.objects.owns h = true := Heap.owns_iff_exists_get?.2 ⟨bytes, hbytes⟩
        simp only [ownerOf, howns, if_true, hbytes]

section SameProgram

variable {a b : Chunk} (hsame : a.SameProgram b) (heap heap' : Heap)

include hsame

theorem instruction_of_sameProgram (offset : Nat) :
    instruction a heap offset = instruction b heap' offset := by
  obtain ⟨constants, hpool, hpool'⟩ := hsame.pool
  have hconstant : constantText a heap offset = constantText b heap' offset := by
    rw [constantText_eq, constantText_eq, reading_of_pool hpool, reading_of_pool hpool',
      hsame.code_eq]
  have htext : instructionText a heap offset = instructionText b heap' offset := by
    unfold instructionText
    rw [hsame.code_eq, hconstant]
  have hline : lineColumn a offset = lineColumn b offset := by
    unfold lineColumn
    rw [hsame.lineAt?_eq, hsame.lineAt?_eq]
  simp only [instruction, htext, hline]

theorem entries_of_sameProgram (offset : Nat) :
    entries a heap offset = entries b heap' offset := by
  have hsize : a.size = b.size := by rw [Chunk.size, Chunk.size, hsame.code_eq]
  induction offset using entries.induct a heap with
  | case1 offset hlt entry ih =>
    have hentry : instruction b heap' offset = entry :=
      (instruction_of_sameProgram hsame heap heap' offset).symm
    rw [entries, entries, if_pos hlt, if_pos (hsize ▸ hlt), hentry]
    exact congrArg (entry.1 :: ·) ih
  | case2 offset hge => rw [entries, entries, if_neg hge, if_neg (hsize ▸ hge)]

/-- **The listings of one program are one text.** -/
theorem chunk_of_sameProgram (title : String) : chunk a heap title = chunk b heap' title := by
  rw [chunk, chunk, entries_of_sameProgram hsame heap heap' 0]

end SameProgram

/-! ### The end of a listing -/

/-- A text that ends in a character that is not blank. -/
def EndsSolid (s : String) : Prop := s.toList.getLast?.any (fun c => !Text.isBlank c) = true

instance (s : String) : Decidable (EndsSolid s) := inferInstanceAs (Decidable (_ = true))

theorem EndsSolid.exists_concat {s : String} (h : EndsSolid s) :
    ∃ rest c, s.toList = rest ++ [c] ∧ Text.isBlank c = false := by
  unfold EndsSolid at h
  cases hlast : s.toList.getLast? with
  | none =>
    rw [hlast] at h
    cases h
  | some c =>
    rw [hlast] at h
    obtain ⟨rest, hrest⟩ := List.getLast?_eq_some_iff.1 hlast
    exact ⟨rest, c, hrest, by simpa using h⟩

theorem EndsSolid.append {t : String} (h : EndsSolid t) (s : String) : EndsSolid (s ++ t) := by
  unfold EndsSolid at h ⊢
  rw [String.toList_append, List.getLast?_append]
  cases hlast : t.toList.getLast? with
  | none =>
    rw [hlast] at h
    cases h
  | some c =>
    rw [hlast] at h
    exact h

theorem endsSolid_mnemonic (op : OpCode) : EndsSolid op.mnemonic := by
  cases op <;> decide

/-- A numeral ends in a digit. -/
theorem endsSolid_toString (n : Nat) : EndsSolid (toString n) := by
  have hdigits : (toString n).toList = Nat.toDigits 10 n := Nat.toList_repr
  obtain ⟨c, hc⟩ := Option.ne_none_iff_exists'.1
    (mt List.getLast?_eq_none_iff.1 (Nat.toDigits_ne_nil (b := 10) (n := n)))
  have hdigit := Nat.isDigit_of_mem_toDigits (by decide) (by decide) (List.mem_of_getLast? hc)
  unfold EndsSolid
  rw [hdigits, hc, Option.any_some, Text.isBlank_of_isDigit hdigit, Bool.not_false]

theorem endsSolid_text (r : Reading) : EndsSolid r.text := by
  cases r with
  | missing => exact EndsSolid.append (by decide) _
  | invalid index => exact EndsSolid.append (by decide) _
  | foreign index h => exact EndsSolid.append (by decide) _
  | found index x => exact EndsSolid.append (by decide) _

theorem endsSolid_instructionText (c : Chunk) (heap : Heap) (offset : Nat) :
    EndsSolid (instructionText c heap offset).1 := by
  unfold instructionText
  cases c.code[offset]? with
  | none => exact show EndsSolid "<end of chunk>" by decide
  | some byte =>
    cases hop : OpCode.ofByte? byte with
    | none =>
      simp only [hop]
      exact EndsSolid.append (endsSolid_toString byte.toNat) _
    | some op =>
      cases op with
      | constant =>
        simp only [hop, constantText_eq]
        exact endsSolid_text _
      | _ =>
        simp only [hop]
        exact endsSolid_mnemonic _

/-- The lines of a listing, without their line breaks. -/
def lines (c : Chunk) (heap : Heap) (title : String) : List String :=
  s!"== {title} ==" :: entries c heap 0

theorem chunk_eq_lines (c : Chunk) (heap : Heap) (title : String) :
    chunk c heap title = String.join ((lines c heap title).map (· ++ "\n")) := by
  have hbreak : toString " ==\n" = toString " ==" ++ "\n" := rfl
  have htitle : s!"== {title} ==\n" = s!"== {title} ==" ++ "\n" := by
    rw [hbreak, ← String.append_assoc]
  rw [chunk, lines, List.map_cons, String.join_cons, htitle]

theorem endsSolid_of_mem_entries {c : Chunk} {heap : Heap} {offset : Nat} {entry : String}
    (h : entry ∈ entries c heap offset) : EndsSolid entry := by
  induction offset using entries.induct c heap with
  | case1 offset hlt next ih =>
    rw [entries, if_pos hlt, List.mem_cons] at h
    cases h with
    | inl h =>
      rw [h]
      exact EndsSolid.append (endsSolid_instructionText c heap offset) _
    | inr h => exact ih h
  | case2 offset hge =>
    rw [entries, if_neg hge] at h
    cases h

/-- A listing ends in a character that is not blank and a line break. -/
theorem exists_endsSolid_chunk (c : Chunk) (heap : Heap) (title : String) :
    ∃ text, EndsSolid text ∧ chunk c heap title = text ++ "\n" := by
  obtain ⟨front, last, hlast⟩ :=
    List.eq_nil_or_concat (lines c heap title) |>.resolve_left (List.cons_ne_nil _ _)
  have hsolid : EndsSolid last := by
    have hmem : last ∈ lines c heap title := by simp [hlast]
    cases List.mem_cons.1 hmem with
    | inl h =>
      rw [h]
      exact EndsSolid.append (by decide) _
    | inr h => exact endsSolid_of_mem_entries h
  refine ⟨String.join (front.map (· ++ "\n")) ++ last, hsolid.append _, ?_⟩
  rw [chunk_eq_lines, hlast]
  simp [String.join_append, String.append_assoc]

/-- **Trimming a listing takes its last line break** and nothing else. -/
theorem trimEnd_chunk (c : Chunk) (heap : Heap) (title : String) :
    String.ofList (Text.trimEnd (chunk c heap title).toList) ++ "\n" = chunk c heap title := by
  obtain ⟨text, hsolid, hchunk⟩ := exists_endsSolid_chunk c heap title
  obtain ⟨rest, last, htext, hlast⟩ := hsolid.exists_concat
  have htrim : Text.trimEnd (chunk c heap title).toList = text.toList := by
    rw [hchunk, String.toList_append, htext]
    simp [Text.trimEnd, hlast, show Text.isBlank '\n' = true by decide]
  rw [htrim, String.ofList_toList, hchunk]

end ExprMachine.Listing
