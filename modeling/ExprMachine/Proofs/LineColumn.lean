import ExprMachine.Proofs.Assembly.Lines
import ExprMachine.Proofs.Number.ReadBack
import ExprMachine.Proofs.Sweep

/-!
# The line column of a listing

An entry has a bar instead of a line number when the byte before it is of the same line. Whoever
reads the entries from top to bottom takes the bar for the number printed last, and that is the line
of the instruction before, not of its operand.

* `Listing.Mark`, `Listing.linesRead` — the line column of entries, and how it is read;
* `Listing.ofEntry_entry` — what stands in the column;
* `Chunk.OperandsInLine`, `Listing.tellsLines_iff` — when the lines that are read are those of the
  instructions;
* `WholeLines`, `Gains.operandsInLine` — code of which every instruction is on one line;
* `Listing.tellsLines_ofWrites` — chunks of any bytes, compiled texts and assembled listings.
-/

namespace ExprMachine

namespace Listing

/-! ### Reading a listing -/

/-- What may stand in the line column. -/
inductive Mark where
  | bar
  | number (line : Nat)
  | unknown
  deriving DecidableEq, Repr

/-- The mark that a word is. -/
def Mark.ofWord (word : List Char) : Mark :=
  if word = ['|'] then bar
  else if Numeral.isDigits word then number (Numeral.value word)
  else unknown

/-- The mark of an entry: its second word. -/
def Mark.ofEntry (entry : String) : Mark :=
  ofWord (Text.firstWord (Text.firstWord entry.toList).2).1

/-- The lines that a reader finds in entries from top to bottom. A bar stands for the line number
printed last. -/
def linesRead (printed : Option Nat) : List String → List (Option Nat)
  | [] => []
  | entry :: rest =>
    match Mark.ofEntry entry with
    | .bar => printed :: linesRead printed rest
    | .number line => some line :: linesRead (some line) rest
    | .unknown => none :: linesRead printed rest

/-! ### The marks of entries -/

theorem toList_padLeft (fill : Char) (width : Nat) (s : String) :
    (padLeft fill width s).toList = List.replicate (width - s.length) fill ++ s.toList := by
  rw [padLeft, String.toList_append, String.toList_ofList]

theorem toList_toString (n : Nat) : (toString n).toList = Decimal.digitsOf n := Nat.toList_repr

theorem isBlank_of_mem_digitsOf {n : Nat} {c : Char} (h : c ∈ Decimal.digitsOf n) :
    Text.isBlank c = false := Text.isBlank_of_isDigit (Numeral.isDigit_of_mem_digitsOf h)

/-- Behind the columns of an entry, of which the second has one word in it, comes whatever follows
them. -/
theorem firstWord_columns (offset : Nat) {column : String} {blanks word : List Char}
    (hcolumn : column.toList = blanks ++ word) (hblanks : ∀ c ∈ blanks, Text.isBlank c = true)
    (hword : ∀ c ∈ word, Text.isBlank c = false) (hne : word ≠ []) (text : List Char) :
    Text.firstWord (Text.firstWord
      ((padLeft '0' 4 (toString offset) ++ " " ++ column ++ " ").toList ++ text)).2 =
      (word, ' ' :: text) := by
  have hspace : Text.isBlank ' ' = true := rfl
  have hoffset : ∀ c ∈ (padLeft '0' 4 (toString offset)).toList, Text.isBlank c = false := by
    intro c hc
    rw [toList_padLeft, toList_toString] at hc
    rcases List.mem_append.1 hc with hzero | hdigit
    · rw [(List.mem_replicate.1 hzero).2]
      rfl
    · exact isBlank_of_mem_digitsOf hdigit
  have hoffset_ne : (padLeft '0' 4 (toString offset)).toList ≠ [] := by
    rw [toList_padLeft, toList_toString]
    exact List.append_ne_nil_of_right_ne_nil _ (Numeral.digitsOf_ne_nil offset)
  have hcolumns : (padLeft '0' 4 (toString offset) ++ " " ++ column ++ " ").toList ++ text =
      [] ++ ((padLeft '0' 4 (toString offset)).toList ++
        ' ' :: (blanks ++ (word ++ ' ' :: text))) := by
    simp [String.toList_append, hcolumn]
  have hgap : ∀ c ∈ ' ' :: blanks, Text.isBlank c = true := by
    intro c hc
    rcases List.mem_cons.1 hc with rfl | hc
    · exact hspace
    · exact hblanks c hc
  have hnone : ∀ c ∈ ([] : List Char), Text.isBlank c = true := nofun
  rw [hcolumns, Text.firstWord_append hnone hoffset hoffset_ne hspace]
  show Text.firstWord ((' ' :: blanks) ++ (word ++ ' ' :: text)) = _
  rw [Text.firstWord_append hgap hword hne hspace]

/-- The second word of an entry is the one in its line column. -/
theorem ofEntry_column (offset : Nat) {column : String} {blanks word : List Char}
    (hcolumn : column.toList = blanks ++ word) (hblanks : ∀ c ∈ blanks, Text.isBlank c = true)
    (hword : ∀ c ∈ word, Text.isBlank c = false) (hne : word ≠ []) (text : String) :
    Mark.ofEntry (padLeft '0' 4 (toString offset) ++ " " ++ column ++ " " ++ text) =
      Mark.ofWord word := by
  rw [Mark.ofEntry, String.toList_append, firstWord_columns offset hcolumn hblanks hword hne]

/-- **The mark of an entry** compares its line with that of the byte before. -/
theorem ofEntry_entry {chunk : Chunk} {offset line : Nat} (heap : Heap)
    (h : chunk.lines.lineAt? offset = some line) :
    Mark.ofEntry (entry chunk heap offset) =
      if 0 < offset ∧ chunk.lines.lineAt? (offset - 1) = some line then .bar else .number line := by
  have hshape (column text : String) (hcolumn : lineColumn chunk offset = column)
      (htext : (instructionText chunk heap offset).1 = text) : entry chunk heap offset =
        padLeft '0' 4 (toString offset) ++ " " ++ column ++ " " ++ text := by
    rw [← hcolumn, ← htext]
    rfl
  by_cases hsame : 0 < offset ∧ chunk.lines.lineAt? (offset - 1) = some line
  · have hcolumn : lineColumn chunk offset = "   |" := by
      unfold lineColumn
      rw [h]
      exact if_pos hsame
    have hblanks : ∀ c ∈ [' ', ' ', ' '], Text.isBlank c = true :=
      List.all_iff_forall_prop.1 (by decide)
    have hbar : ∀ c ∈ ['|'], Text.isBlank c = false := List.all_iff_forall_prop.1 (by decide)
    rw [hshape _ _ hcolumn rfl, if_pos hsame]
    exact ofEntry_column offset rfl hblanks hbar (List.cons_ne_nil _ _) _
  · have hcolumn : lineColumn chunk offset = padLeft ' ' 4 (toString line) := by
      unfold lineColumn
      rw [h]
      exact if_neg hsame
    have hbar : Decimal.digitsOf line ≠ ['|'] := by
      intro heq
      have hmem : '|' ∈ Decimal.digitsOf line := heq ▸ List.mem_singleton.2 rfl
      cases Numeral.isDigit_of_mem_digitsOf hmem
    have hmark : Mark.ofWord (Decimal.digitsOf line) = .number line := by
      rw [Mark.ofWord, if_neg hbar, if_pos (Numeral.isDigits_digitsOf line),
        Numeral.value_digitsOf]
    rw [hshape _ _ hcolumn rfl, if_neg hsame, ← hmark]
    have hshown : (padLeft ' ' 4 (toString line)).toList =
        List.replicate (4 - (toString line).length) ' ' ++ Decimal.digitsOf line := by
      rw [toList_padLeft, toList_toString]
    refine ofEntry_column offset hshown ?_ (fun c hc => isBlank_of_mem_digitsOf hc)
      (Numeral.digitsOf_ne_nil line) _
    intro c hc
    rw [(List.mem_replicate.1 hc).2]
    rfl

end Listing

/-! ### When bars are read right -/

namespace Chunk

/-- An operand has the line of the next instruction only if its own instruction has it. -/
def OperandsInLine (chunk : Chunk) : Prop :=
  ∀ offset ∈ chunk.sweep 0, chunk.widthAt offset = 2 → offset + 2 < chunk.size →
    chunk.lines.lineAt? (offset + 1) = chunk.lines.lineAt? (offset + 2) →
    chunk.lines.lineAt? offset = chunk.lines.lineAt? (offset + 2)

/-- If there is a bar at an offset, `printed` is what it should stand for. -/
def BarFor (chunk : Chunk) (printed : Option Nat) (offset : Nat) : Prop :=
  0 < offset → chunk.lines.lineAt? (offset - 1) = chunk.lines.lineAt? offset →
    printed = chunk.lines.lineAt? offset

/-- Every bar from an offset on should stand for the line of the entry above it, and the first for
`printed`. -/
def BarsFor (chunk : Chunk) (printed : Option Nat) (offset : Nat) : Prop :=
  (offset < chunk.size → chunk.BarFor printed offset) ∧
    ∀ place ∈ chunk.sweep offset, place + chunk.widthAt place < chunk.size →
      chunk.BarFor (chunk.lines.lineAt? place) (place + chunk.widthAt place)

variable {chunk : Chunk}

theorem widthAt_le (offset : Nat) : chunk.widthAt offset ≤ 2 := by
  have hoperand (op : OpCode) : op.operandWidth ≤ 1 := by cases op <;> decide
  unfold widthAt
  split
  · rename_i op _
    have hop := hoperand op
    split <;> omega
  · omega

/-- Only behind an operand a bar can stand for another line than that of the entry above it. -/
theorem barsFor_zero_iff : chunk.BarsFor none 0 ↔ chunk.OperandsInLine := by
  constructor
  · rintro ⟨-, h⟩ place hplace htwo hlt hsame
    have hbar := h place hplace
    rw [htwo] at hbar
    exact hbar hlt (by omega) hsame
  · intro h
    refine ⟨fun _ hpos => absurd hpos (Nat.lt_irrefl 0), ?_⟩
    intro place hplace hlt _ hsame
    have hpos := chunk.widthAt_pos place
    have hle := chunk.widthAt_le place
    obtain hone | htwo : chunk.widthAt place = 1 ∨ chunk.widthAt place = 2 := by omega
    · rw [hone] at hsame ⊢
      exact hsame
    · rw [htwo] at hlt hsame ⊢
      exact h place hplace htwo hlt hsame

theorem barsFor_of_lt {printed : Option Nat} {offset : Nat} (h : offset < chunk.size) :
    chunk.BarsFor printed offset ↔ chunk.BarFor printed offset ∧
      chunk.BarsFor (chunk.lines.lineAt? offset) (offset + chunk.widthAt offset) := by
  unfold BarsFor
  rw [sweep_of_lt h, List.forall_mem_cons]
  exact ⟨fun ⟨hhere, hnext, hlater⟩ => ⟨hhere h, hnext, hlater⟩,
    fun ⟨hhere, hnext, hlater⟩ => ⟨fun _ => hhere, hnext, hlater⟩⟩

end Chunk

namespace Listing

variable {chunk : Chunk}

/-- The entries from an offset on are read right exactly if their bars are. -/
theorem linesRead_sweep_iff (hstep : chunk.InStep) (heap : Heap) {offset : Nat}
    (h : offset ≤ chunk.size) (printed : Option Nat) :
    linesRead printed ((chunk.sweep offset).map (entry chunk heap)) =
        (chunk.sweep offset).map chunk.lines.lineAt? ↔ chunk.BarsFor printed offset := by
  revert printed
  refine Chunk.sweep_induction (P := fun offset => ∀ printed,
    linesRead printed ((chunk.sweep offset).map (entry chunk heap)) =
        (chunk.sweep offset).map chunk.lines.lineAt? ↔ chunk.BarsFor printed offset) ?_ ?_ h
  · intro printed
    unfold Chunk.BarsFor
    rw [Chunk.sweep_of_le (Nat.le_refl _)]
    exact ⟨fun _ => ⟨fun hlt => absurd hlt (Nat.lt_irrefl _), nofun⟩, fun _ => rfl⟩
  · intro offset hlt ih printed
    obtain ⟨line, hline⟩ := Option.isSome_iff_exists.1 (hstep.lineAt?_isSome hlt)
    have hmark := ofEntry_entry heap hline
    rw [Chunk.barsFor_of_lt hlt, Chunk.sweep_of_lt hlt, List.map_cons, List.map_cons, linesRead,
      hmark, hline, ← ih (some line)]
    unfold Chunk.BarFor
    rw [hline]
    by_cases hsame : 0 < offset ∧ chunk.lines.lineAt? (offset - 1) = some line
    · rw [if_pos hsame, List.cons.injEq]
      constructor
      · rintro ⟨rfl, hread⟩
        exact ⟨fun _ _ => rfl, hread⟩
      · rintro ⟨hbar, hread⟩
        obtain rfl : printed = some line := hbar hsame.1 hsame.2
        exact ⟨rfl, hread⟩
    · rw [if_neg hsame, List.cons.injEq]
      exact ⟨fun ⟨_, hread⟩ => ⟨fun hpos heq => absurd ⟨hpos, heq⟩ hsame, hread⟩,
        fun ⟨_, hread⟩ => ⟨rfl, hread⟩⟩

/-- What a reader finds in the line column are the lines of the instructions. -/
def TellsLines (chunk : Chunk) (heap : Heap) : Prop :=
  linesRead none (entries chunk heap 0) = (chunk.sweep 0).map chunk.lines.lineAt?

theorem tellsLines_iff (hstep : chunk.InStep) (heap : Heap) :
    TellsLines chunk heap ↔ chunk.OperandsInLine := by
  rw [TellsLines, entries_eq_sweep heap (Nat.zero_le _),
    linesRead_sweep_iff hstep heap (Nat.zero_le _), Chunk.barsFor_zero_iff]

end Listing

/-! ### Code of which every instruction is on one line -/

/-- Bytes with their lines that are whole instructions, each on one line. -/
inductive WholeLines : List (UInt8 × Nat) → Prop
  | nil : WholeLines []
  | single {byte : UInt8} {line : Nat} {rest : List (UInt8 × Nat)} :
      byte ≠ OpCode.constant.toByte → WholeLines rest → WholeLines ((byte, line) :: rest)
  | constant {index : UInt8} {line : Nat} {rest : List (UInt8 × Nat)} : WholeLines rest →
      WholeLines ((OpCode.constant.toByte, line) :: (index, line) :: rest)

theorem WholeLines.append {first second : List (UInt8 × Nat)} (h : WholeLines first)
    (h' : WholeLines second) : WholeLines (first ++ second) := by
  induction h with
  | nil => exact h'
  | single hbyte _ ih => exact .single hbyte ih
  | constant _ ih => exact .constant ih

theorem OpCode.toByte_ne_constant {op : OpCode} (h : op ≠ .constant) :
    op.toByte ≠ OpCode.constant.toByte := by
  cases op with
  | constant => exact absurd rfl h
  | _ => decide

theorem OpCode.toByte_of_ofByte? {byte : UInt8} {op : OpCode} (h : OpCode.ofByte? byte = some op) :
    op.toByte = byte := by
  have hnodup : OpCode.all.Nodup := by decide
  have hsame : OpCode.all[op.toByte.toNat]? = OpCode.all[byte.toNat]? :=
    (OpCode.ofByte?_toByte op).trans h.symm
  have hlt : op.toByte.toNat < OpCode.all.length := by cases op <;> decide
  exact UInt8.toNat_inj.1 ((List.getElem?_inj hlt hnodup).1 hsame)

theorem OpCode.ofByte?_ne_constant {byte : UInt8} (h : byte ≠ OpCode.constant.toByte) :
    OpCode.ofByte? byte ≠ some .constant :=
  fun hop => h (OpCode.toByte_of_ofByte? hop).symm

theorem Chunk.widthAt_of_ne_constant {chunk : Chunk} {offset : Nat} {byte : UInt8}
    (hbyte : chunk.code[offset]? = some byte) (h : byte ≠ OpCode.constant.toByte) :
    chunk.widthAt offset = 1 := by
  cases hop : OpCode.ofByte? byte with
  | none => simp only [widthAt, hbyte, Option.bind_some, hop]
  | some op =>
    refine widthAt_of_operandWidth hbyte hop ?_
    cases op with
    | constant => exact absurd hop (OpCode.ofByte?_ne_constant h)
    | _ => rfl

section Gains

variable {id : HeapId} {chunk : Chunk} {code : List (UInt8 × Nat)} {pool : List Literal}
  (h : Gains (.empty id) chunk code pool)

include h

/-- The instruction at an offset is the first of those that are left. -/
theorem Gains.whole_step {offset : Nat} (hlt : offset < chunk.size)
    (hdrop : WholeLines (code.drop offset)) :
    (chunk.widthAt offset = 2 →
      chunk.lines.lineAt? offset = chunk.lines.lineAt? (offset + 1)) ∧
      WholeLines (code.drop (offset + chunk.widthAt offset)) := by
  have hhere (i : Nat) : code[offset + i]? = (code.drop offset)[i]? := List.getElem?_drop.symm
  have hbyte := h.getElem?_code offset
  have hoperand := h.getElem?_code (offset + 1)
  have hline := h.lineAt?_eq offset
  have hline' := h.lineAt?_eq (offset + 1)
  rw [← Nat.add_zero offset, hhere, Nat.add_zero] at hbyte hline
  rw [hhere] at hoperand hline'
  rw [← List.drop_drop]
  generalize hleft : code.drop offset = left at *
  cases hdrop with
  | nil =>
    rw [List.drop_eq_nil_iff, ← h.size_eq] at hleft
    omega
  | single hne hrest =>
    rw [Chunk.widthAt_of_ne_constant hbyte hne]
    exact ⟨fun htwo => absurd htwo (by decide), hrest⟩
  | constant hrest =>
    have hwidth : chunk.widthAt offset = 2 := by
      rw [Chunk.widthAt_of_constant hbyte (OpCode.ofByte?_toByte .constant), hoperand]
      rfl
    rw [hwidth]
    exact ⟨fun _ => hline.trans hline'.symm, hrest⟩

/-- In whole instructions the operand is on the line of its instruction. -/
theorem Gains.lineAt?_operand {offset : Nat} (hle : offset ≤ chunk.size)
    (hdrop : WholeLines (code.drop offset)) :
    ∀ place ∈ chunk.sweep offset, chunk.widthAt place = 2 →
      chunk.lines.lineAt? place = chunk.lines.lineAt? (place + 1) := by
  revert hdrop
  refine Chunk.sweep_induction (P := fun offset => WholeLines (code.drop offset) →
    ∀ place ∈ chunk.sweep offset, chunk.widthAt place = 2 →
      chunk.lines.lineAt? place = chunk.lines.lineAt? (place + 1)) ?_ ?_ hle
  · intro _ place hplace
    rw [Chunk.sweep_of_le (Nat.le_refl _)] at hplace
    cases hplace
  · intro offset hlt ih hdrop
    obtain ⟨hline, hrest⟩ := h.whole_step hlt hdrop
    rw [Chunk.sweep_of_lt hlt, List.forall_mem_cons]
    exact ⟨hline, ih hrest⟩

theorem Gains.operandsInLine (hwhole : WholeLines code) : chunk.OperandsInLine := by
  intro offset hoffset htwo _ hsame
  exact (h.lineAt?_operand (Nat.zero_le _) hwhole offset hoffset htwo).trans hsame

end Gains

theorem wholeLines_codes {codes : List OpCode} (h : ∀ code ∈ codes, code ≠ .constant)
    (line : Nat) : WholeLines (codes.map fun code => (code.toByte, line)) := by
  induction codes with
  | nil => exact .nil
  | cons code codes ih =>
    exact .single (OpCode.toByte_ne_constant (h code List.mem_cons_self))
      (ih fun later hlater => h later (List.mem_cons_of_mem _ hlater))

theorem wholeLines_postOrder (e : Expr) (index : Nat) : WholeLines (e.postOrder index) := by
  induction e generalizing index with
  | literal value line =>
    cases value with
    | nil => exact .single (by decide) .nil
    | bool b => cases b <;> exact .single (by decide) .nil
    | number x => exact .constant .nil
    | string bytes => exact .constant .nil
  | group inner line ih => exact ih index
  | unary op operand ih =>
    exact (ih index).append (.single (by cases op <;> decide) .nil)
  | binary op left right ihl ihr =>
    exact ((ihl index).append (ihr _)).append
      (wholeLines_codes (by cases op <;> decide) right.lastLine)

theorem compile_operandsInLine {id : HeapId} {source : String} {chunk : Chunk}
    (h : compile id source = .ok chunk) : chunk.OperandsInLine := by
  obtain ⟨e, line, -, -, rfl⟩ := compile_eq_ok_iff.1 h
  have hlast : WholeLines [(OpCode.halt.toByte, line)] := .single (by decide) .nil
  exact (program_gains e id line).operandsInLine ((wholeLines_postOrder e 0).append hlast)

namespace Assembly

/-- A statement whose bytes are whole instructions. -/
def Statement.Whole (statement : Statement) : Prop :=
  statement ≠ .byte OpCode.constant.toByte ∧ statement ≠ .op .constant

theorem Statement.Whole.wholeLines {statement : Statement} (h : statement.Whole)
    (index line : Nat) : WholeLines ((statement.bytes index).map (·, line)) := by
  cases statement with
  | constant x => exact .nil
  | byte b => exact .single (fun hb => h.1 (congrArg Statement.byte hb)) .nil
  | op code =>
    exact .single (OpCode.toByte_ne_constant fun hcode => h.2 (congrArg Statement.op hcode)) .nil
  | pushIndex k => exact .constant .nil
  | pushLiteral x => exact .constant .nil

theorem wholeLines_codeOf {statements : List (Statement × Nat)}
    (h : ∀ placed ∈ statements, placed.1.Whole) (index : Nat) :
    WholeLines (codeOf index statements) := by
  induction statements generalizing index with
  | nil => exact .nil
  | cons placed rest ih =>
    exact ((h placed List.mem_cons_self).wholeLines index placed.2).append
      (ih (fun later hlater => h later (List.mem_cons_of_mem _ hlater)) _)

/-- The instruction for a constant never stands without its index. -/
theorem readStatement_ne_constant (s : List Char) : readStatement s ≠ .ok (.op .constant) := by
  have hmap (f : Literal → Statement) (hf : ∀ x, f x ≠ .op .constant) (t : List Char) :
      (readLiteral t).map f ≠ .ok (.op .constant) := by
    cases readLiteral t with
    | error fault => exact nofun
    | ok x => exact fun h => hf x (Except.ok.inj h)
  have hconstant (t : List Char) : readConstant t ≠ .ok (.op .constant) := by
    unfold readConstant
    split
    · split <;> exact nofun
    · exact hmap .pushLiteral nofun _
  unfold readStatement
  split
  all_goals
    simp only
    split
    · exact hmap .constant nofun _
    split
    · split <;> exact nofun
    split
    · exact nofun
    · exact hconstant _
    · rename_i op hop _
      split
      · exact fun h => hop (Statement.op.inj (Except.ok.inj h))
      · exact nofun

theorem readLine_ne_constant (number line : Nat) (text : List Char) :
    readLine number text ≠ .ok (some (.op .constant, line)) := by
  intro hread
  unfold readLine at hread
  simp only at hread
  split at hread
  · cases hread
  split at hread
  · cases hread
  cases hfound : readLineNumber number (Text.trim (dropComment text)) with
  | error fault =>
    rw [hfound] at hread
    cases hread
  | ok found =>
    rw [hfound] at hread
    cases hstatement : readStatement found.2 with
    | error fault =>
      simp only [bind, Except.bind, hstatement] at hread
      cases hread
    | ok statement =>
      simp only [bind, Except.bind, hstatement] at hread
      cases hread
      exact readStatement_ne_constant _ hstatement

theorem items_ne_constant {number : Nat} {lines : List (List Char)} :
    ∀ placed ∈ items number lines, placed.1 ≠ .op .constant := by
  induction lines generalizing number with
  | nil => exact nofun
  | cons line rest ih =>
    rintro ⟨statement, origin⟩ hplaced rfl
    rcases List.mem_append.1 hplaced with hhere | hlater
    · have hitem : item? number line = some (.op .constant, origin) := Option.mem_toList.1 hhere
      unfold item? at hitem
      split at hitem
      · rename_i found hread
        exact readLine_ne_constant _ _ _ (hitem ▸ hread)
      · cases hitem
    · exact ih _ hlater rfl

theorem assemble_operandsInLine {id : HeapId} {source : String} {chunk : Chunk}
    (h : assemble id source = .ok chunk)
    (hbytes : ∀ placed ∈ items 1 (sourceLines source),
      placed.1 ≠ .byte OpCode.constant.toByte) : chunk.OperandsInLine :=
  ((assemble_outcome id source).gains h).operandsInLine (wholeLines_codeOf
    (fun placed hplaced => ⟨hbytes placed hplaced, items_ne_constant placed hplaced⟩) _)

end Assembly

/-! ### Chunks of any bytes -/

namespace Chunk

/-- The chunk that writing bytes with their lines makes, whatever constants and strings it has. -/
def ofWrites (constants : Array Value) (objects : Heap) (writes : List (UInt8 × Nat)) : Chunk :=
  writes.foldl (fun chunk entry => chunk.write entry.1 entry.2) { constants, objects }

theorem inStep_ofWrites (constants : Array Value) (objects : Heap)
    (writes : List (UInt8 × Nat)) : (ofWrites constants objects writes).InStep := by
  have hfold {chunk : Chunk} (h : chunk.InStep) :
      (writes.foldl (fun chunk entry => chunk.write entry.1 entry.2) chunk).InStep := by
    induction writes generalizing chunk with
    | nil => exact h
    | cons entry writes ih => exact ih (h.write entry.1 entry.2)
  exact hfold ⟨LineTable.counted_empty, rfl⟩

end Chunk

namespace Listing

/-- **The line column tells the lines of the instructions** of a chunk of any bytes exactly if no
operand is on the line of the next instruction and not on that of its own. Compiled code is so, and
so are assembled listings in which no byte is put for the instruction that has an operand. -/
theorem tellsLines_ofWrites (constants : Array Value) (objects : Heap)
    (writes : List (UInt8 × Nat)) (heap : Heap) :
    (TellsLines (.ofWrites constants objects writes) heap ↔
      (Chunk.ofWrites constants objects writes).OperandsInLine) ∧
      (∀ id source compiled, compile id source = .ok compiled → TellsLines compiled heap) ∧
      ∀ id source assembled, Assembly.assemble id source = .ok assembled →
        (TellsLines assembled heap ↔ assembled.OperandsInLine) ∧
        ((∀ placed ∈ Assembly.items 1 (Assembly.sourceLines source),
          placed.1 ≠ .byte OpCode.constant.toByte) → TellsLines assembled heap) := by
  refine ⟨tellsLines_iff (Chunk.inStep_ofWrites constants objects writes) heap, ?_, ?_⟩
  · intro id source compiled hcompile
    have hoperands := compile_operandsInLine hcompile
    obtain ⟨e, line, -, -, rfl⟩ := compile_eq_ok_iff.1 hcompile
    exact (tellsLines_iff (program_inStep e id line) heap).2 hoperands
  · intro id source assembled hassemble
    have hstep := ((Assembly.assemble_outcome id source).gains hassemble).inStep
      (Chunk.inStep_empty id)
    exact ⟨tellsLines_iff hstep heap, fun hbytes =>
      (tellsLines_iff hstep heap).2 (Assembly.assemble_operandsInLine hassemble hbytes)⟩

/-- The operand is on the second line, and so is the next instruction, whose bar is read as the
first. -/
theorem not_tellsLines_operand_line :
    ∃ chunk, Assembly.assemble ⟨0⟩ "1: BYTE 0\n2: BYTE 0\n2: NIL\n" = .ok chunk ∧
      ¬ TellsLines chunk { id := ⟨1⟩ } ∧
      linesRead none (entries chunk { id := ⟨1⟩ } 0) = [some 1, some 1] ∧
      (chunk.sweep 0).map chunk.lines.lineAt? = [some 1, some 2] := by
  have hread : linesRead none (entries
      ((((Chunk.empty ⟨0⟩).write 0 1).write 0 2).writeOp .pushNil 2) { id := ⟨1⟩ } 0) =
        [some 1, some 1] := by decide +kernel
  have hlines : (((((Chunk.empty ⟨0⟩).write 0 1).write 0 2).writeOp .pushNil 2).sweep 0).map
      ((((Chunk.empty ⟨0⟩).write 0 1).write 0 2).writeOp .pushNil 2).lines.lineAt? =
        [some 1, some 2] := by decide +kernel
  refine ⟨_, rfl, ?_, hread, hlines⟩
  intro htells
  have heq : [some 1, some 1] = [some 1, some 2] := hread.symm.trans (htells.trans hlines)
  revert heq
  decide

end Listing

end ExprMachine
