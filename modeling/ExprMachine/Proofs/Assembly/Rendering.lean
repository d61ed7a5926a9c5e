import ExprMachine.Proofs.Assembly.Contribution
import ExprMachine.Proofs.Assembly.Layout

/-!
# Listings as they are written

Assembling undoes writing: however the lines of a listing are written, the chunk has the bytes of
its statements, one after the other, and their literals.

* `WritesListing` — the texts of a listing, with either line end;
* `placed` — the statements of a listing with their lines;
* `codeOf`, `pooledOf` — the code and the constants of statements, `HasRoom` when they are accepted;
* `addLines_of_writes`, `assemble_of_writes` — what assembling makes of a written listing.
-/

namespace ExprMachine.Assembly

/-! ### Texts of listings -/

/-- A listing, line after line. The last line may lack its end if something stands on it. -/
inductive WritesListing : List (Option Item) → List Char → Prop
  | nil : WritesListing [] []
  | last {line? : Option Item} {s : List Char} : WritesLine line? s → s ≠ [] →
      WritesListing [line?] s
  | feed {line? : Option Item} {lines : List (Option Item)} {s rest : List Char} :
      WritesLine line? s → WritesListing lines rest →
      WritesListing (line? :: lines) (s ++ '\n' :: rest)
  | returnFeed {line? : Option Item} {lines : List (Option Item)} {s rest : List Char} :
      WritesLine line? s → WritesListing lines rest →
      WritesListing (line? :: lines) (s ++ '\r' :: '\n' :: rest)

/-- A written listing has the lines that it is written with. -/
theorem lines_of_writes {lines : List (Option Item)} {s : List Char} (h : WritesListing lines s) :
    List.Forall₂ WritesLine lines (Text.lines '\n' '\r' s) := by
  induction h with
  | nil => exact .nil
  | last hline hne =>
    rw [Text.lines_of_not_mem '\r' hline.feedless, if_neg hne]
    exact .cons hline .nil
  | feed hline _ ih =>
    rw [Text.lines_append_feed '\r' hline.feedless]
    exact .cons hline.dropReturn ih
  | @returnFeed line? lines s rest hline _ ih =>
    have hfeedless : '\n' ∉ s ++ ['\r'] := by
      intro hfeed
      rcases List.mem_append.1 hfeed with hfeed | hreturn
      · exact hline.feedless hfeed
      · cases List.mem_singleton.1 hreturn
    -- The return counts as the end of the line until the line end takes it.
    have hassoc : s ++ '\r' :: '\n' :: rest = (s ++ ['\r']) ++ '\n' :: rest := by
      rw [List.append_assoc, List.singleton_append]
    rw [hassoc, Text.lines_append_feed '\r' hfeedless, Text.dropReturn_concat]
    exact .cons hline ih

/-- Which literals can be written: not NaN, and no bytes that are not the bytes of characters. -/
def HasText : Literal → Prop
  | .number x => x.isNaN = false
  | .string bytes => ∃ cs, bytes = Text.Utf8.encode cs
  | _ => True

/-- Which items can be written: a constant needs its operand, and lines are numbered from 1 on. -/
structure Item.Writable (item : Item) : Prop where
  op_ne : item.statement ≠ .op .constant
  hasText : ∀ x ∈ item.statement.pooled, HasText x
  line_mem : ∀ n, item.line? = some n → 1 ≤ n ∧ n ≤ maxLine

theorem HasText.exists_writes {x : Literal} (h : HasText x) : ∃ s, WritesLiteral x s := by
  cases x with
  | nil => exact ⟨_, .nil⟩
  | bool b => exact ⟨_, .bool b⟩
  | number y => exact ⟨_, .number h⟩
  | string bytes =>
    obtain ⟨cs, rfl⟩ := h
    exact ⟨_, .string cs⟩

theorem Item.Writable.exists_writes {item : Item} (h : item.Writable) :
    ∃ s, WritesLine (some item) s := by
  have hname (op : OpCode) : Names op op.bareName.toList := .inl (by cases op <;> rfl)
  have hconst : Spells "CONST" "CONST".toList := rfl
  have hbyte : Spells "BYTE" "BYTE".toList := rfl
  have hgap : Blanks [' '] := fun c hc => .inl (List.mem_singleton.1 hc)
  have hnone : Blanks [] := nofun
  have hoperand {statement : Statement} {name operand : List Char}
      (hwrites : WritesOperand statement name operand) : ∃ body, WritesStatement statement body :=
    ⟨_, .withOperand hwrites hgap (List.cons_ne_nil _ _)⟩
  have hbody : ∃ body, WritesStatement item.statement body := by
    have hop := h.op_ne
    have htext := h.hasText
    cases hstatement : item.statement with
    | op code =>
      rw [hstatement] at hop
      exact ⟨_, .alone (fun heq => hop (heq ▸ rfl)) (hname code)⟩
    | byte b => exact hoperand (.byte hbyte (writesNat_digitsOf _))
    | pushIndex k => exact hoperand (.pushIndex (hname .constant) (writesNat_digitsOf _))
    | constant x =>
      rw [hstatement] at htext
      obtain ⟨text, hliteral⟩ := (htext x (List.mem_singleton.2 rfl)).exists_writes
      exact hoperand (.constant hconst hliteral)
    | pushLiteral x =>
      rw [hstatement] at htext
      obtain ⟨text, hliteral⟩ := (htext x (List.mem_singleton.2 rfl)).exists_writes
      exact hoperand (.pushLiteral (hname .constant) hliteral)
  have hnumber : ∃ number, WritesNumber item.line? number := by
    have hline := h.line_mem
    cases hitem : item.line? with
    | none => exact ⟨_, .absent⟩
    | some n =>
      obtain ⟨hpos, hmax⟩ := hline n hitem
      exact ⟨_, .present hpos hmax (writesNat_digitsOf n) hnone hnone⟩
  obtain ⟨body, hbody⟩ := hbody
  obtain ⟨number, hnumber⟩ := hnumber
  exact ⟨_, .item hnone hnumber hbody (.blank hnone)⟩

/-- Whatever items can be written make a listing. -/
theorem exists_writesListing {items : List Item} (h : ∀ item ∈ items, item.Writable) :
    ∃ s, WritesListing (items.map some) s := by
  induction items with
  | nil => exact ⟨_, .nil⟩
  | cons item items ih =>
    obtain ⟨line, hline⟩ := (h item List.mem_cons_self).exists_writes
    obtain ⟨rest, hrest⟩ := ih fun other hother => h other (List.mem_cons_of_mem _ hother)
    exact ⟨_, .feed hline hrest⟩

/-! ### Statements in order -/

/-- The statements of lines with the lines that they are of; the first line has the number
`number`. -/
def placed (number : Nat) : List (Option Item) → List (Statement × Nat)
  | [] => []
  | line? :: rest => (line?.map (Item.placed number)).toList ++ placed (number + 1) rest

/-- The code bytes of statements with their lines. Constants are numbered from `index` on. -/
def codeOf (index : Nat) : List (Statement × Nat) → List (UInt8 × Nat)
  | [] => []
  | (statement, line) :: rest =>
    (statement.bytes index).map (·, line) ++ codeOf (index + statement.pooled.length) rest

/-- The constants of statements. -/
def pooledOf (statements : List (Statement × Nat)) : List Literal :=
  statements.flatMap fun placed => placed.1.pooled

/-- No statement pushes a new constant once there are as many as a byte can number. -/
def HasRoom (index : Nat) (statements : List (Statement × Nat)) : Prop :=
  ∀ before x line after, statements = before ++ (.pushLiteral x, line) :: after →
    index + (pooledOf before).length < constantLimit

theorem pooledOf_append (first second : List (Statement × Nat)) :
    pooledOf (first ++ second) = pooledOf first ++ pooledOf second := List.flatMap_append

theorem codeOf_append (index : Nat) (first second : List (Statement × Nat)) :
    codeOf index (first ++ second) =
      codeOf index first ++ codeOf (index + (pooledOf first).length) second := by
  induction first generalizing index with
  | nil => rfl
  | cons head first ih =>
    obtain ⟨statement, line⟩ := head
    have hpooled : pooledOf ((statement, line) :: first) = statement.pooled ++ pooledOf first := rfl
    show (statement.bytes index).map (·, line) ++
        codeOf (index + statement.pooled.length) (first ++ second) = _
    rw [ih, hpooled, List.length_append, Nat.add_assoc, ← List.append_assoc]
    rfl

section Room

variable {index : Nat} {first second : List (Statement × Nat)}
  (h : HasRoom index (first ++ second))

include h

theorem HasRoom.left : HasRoom index first := by
  intro before x line after hfirst
  refine h before x line (after ++ second) ?_
  rw [hfirst, List.append_assoc, List.cons_append]

theorem HasRoom.right : HasRoom (index + (pooledOf first).length) second := by
  intro before x line after hsecond
  have hroom := h (first ++ before) x line after (by rw [hsecond, List.append_assoc])
  rw [pooledOf_append, List.length_append] at hroom
  omega

end Room

/-- Statements with no more constants than a byte can number have room for them. -/
theorem hasRoom_of_length_le {statements : List (Statement × Nat)}
    (h : (pooledOf statements).length ≤ constantLimit) : HasRoom 0 statements := by
  rintro before x line after rfl
  have hpooled : (pooledOf ((.pushLiteral x, line) :: after)).length =
      1 + (pooledOf after).length := by
    show ([x] ++ pooledOf after).length = _
    rw [List.length_append, List.length_singleton]
  rw [pooledOf_append, List.length_append, hpooled] at h
  omega

/-! ### Assembling -/

/-- A line adds the statement that is read on it, if there is room for its constant. -/
theorem addLine_of_readLine {chunk : Chunk} {number : Nat} {s : List Char} {statement : Statement}
    {line : Nat} (hread : readLine number s = .ok (some (statement, line)))
    (hroom : ∀ x, statement = .pushLiteral x → chunk.constants.size < constantLimit) :
    ∃ larger, addLine chunk number s = .ok larger ∧
      Gains chunk larger (codeOf chunk.constants.size [(statement, line)])
        (pooledOf [(statement, line)]) := by
  obtain ⟨larger, hlarger⟩ := apply_eq_ok line hroom
  have hcode : codeOf chunk.constants.size [(statement, line)] =
      (statement.bytes chunk.constants.size).map (·, line) := List.append_nil _
  have hpooled : pooledOf [(statement, line)] = statement.pooled := List.append_nil _
  refine ⟨larger, ?_, ?_⟩
  · rw [addLine, hread]
    exact hlarger
  · rw [hcode, hpooled]
    exact apply_gains hlarger

/-- A written line adds its statement. -/
theorem addLine_of_writes {line? : Option Item} {s : List Char} (h : WritesLine line? s)
    {chunk : Chunk} {number : Nat} (hnumber : number ≤ maxLine)
    (hroom : HasRoom chunk.constants.size (line?.map (Item.placed number)).toList) :
    ∃ larger, addLine chunk number s = .ok larger ∧
      Gains chunk larger (codeOf chunk.constants.size (line?.map (Item.placed number)).toList)
        (pooledOf (line?.map (Item.placed number)).toList) := by
  have hread := readLine_of_writes h hnumber
  cases line? with
  | none =>
    refine ⟨chunk, ?_, gains_nothing chunk⟩
    rw [addLine, hread]
    rfl
  | some item =>
    refine addLine_of_readLine hread ?_
    intro x hx
    refine hroom [] x (item.line?.getD number) [] ?_
    show [(item.statement, item.line?.getD number)] = _
    rw [hx]
    rfl

/-- Written lines add their statements. -/
theorem addLines_of_writes {lines : List (Option Item)} {texts : List (List Char)}
    (h : List.Forall₂ WritesLine lines texts) {chunk : Chunk} {number : Nat}
    (hnumber : number + lines.length ≤ maxLine + 1)
    (hroom : HasRoom chunk.constants.size (placed number lines)) :
    ∃ larger, addLines chunk number texts = .ok larger ∧
      Gains chunk larger (codeOf chunk.constants.size (placed number lines))
        (pooledOf (placed number lines)) := by
  induction h generalizing chunk number with
  | nil => exact ⟨chunk, rfl, gains_nothing chunk⟩
  | @cons line? text lines texts hline _ ih =>
    rw [List.length_cons] at hnumber
    obtain ⟨next, hnext, hfirst⟩ := addLine_of_writes hline (by omega) hroom.left
    -- The constants behind the first line are numbered from those that it has added.
    have hsize := hfirst.size_constants
    have hrest : HasRoom next.constants.size (placed (number + 1) lines) := by
      rw [hsize]
      exact hroom.right
    obtain ⟨larger, hlarger, hsecond⟩ := ih (by omega) hrest
    refine ⟨larger, ?_, ?_⟩
    · rw [addLines, hnext]
      exact hlarger
    · have hboth := hfirst.trans hsecond
      rw [hsize, ← codeOf_append, ← pooledOf_append] at hboth
      exact hboth

/-- **Assembling undoes writing.** A listing that is written in any layout is accepted: the code is
that of its statements, every byte is of the line that its statement is said to be of or stands on,
and the constants are the literals, their strings kept in the chunk. -/
theorem assemble_of_writes (id : HeapId) {lines : List (Option Item)} {source : String}
    (hwritten : WritesListing lines source.toList) (hlines : lines.length ≤ maxLine)
    (hroom : HasRoom 0 (placed 1 lines)) :
    ∃ chunk, assemble id source = .ok chunk ∧
      chunk.code.toList = (codeOf 0 (placed 1 lines)).map Prod.fst ∧
      (∀ offset, chunk.lines.lineAt? offset =
        ((codeOf 0 (placed 1 lines)).map Prod.snd)[offset]?) ∧
      chunk.constants.toList.map chunk.objects.literal? = (pooledOf (placed 1 lines)).map some ∧
      chunk.objects.id = id ∧
      chunk.objects.objects.toList = (pooledOf (placed 1 lines)).filterMap Literal.bytes? := by
  have hnumber : 1 + lines.length ≤ maxLine + 1 := by omega
  have hempty : HasRoom (Chunk.empty id).constants.size (placed 1 lines) := hroom
  obtain ⟨chunk, hchunk, hgains⟩ := addLines_of_writes (lines_of_writes hwritten) hnumber hempty
  have hstep : chunk.InStep := hgains.inStep (Chunk.inStep_empty id)
  have hlist : chunk.lines.toList = (codeOf 0 (placed 1 lines)).map Prod.snd := hgains.lines_eq
  refine ⟨chunk, hchunk, hgains.code_eq, ?_, hgains.constants_of_empty, hgains.id_eq,
    hgains.objects_eq⟩
  intro offset
  rw [LineTable.lineAt?_eq_getElem? hstep.counted, hlist]

/-- A comment, a string with both of its marks in it, a line number, a number and both line ends. -/
def mixedLayout : String :=
  "; a\n\tConst \"x;\\\"\" ; b\r\n07 : OP_Constant #0\nconstant 1.5\n\nreturn"

theorem assemble_mixedLayout :
    ∃ chunk, assemble ⟨0⟩ mixedLayout = .ok chunk ∧
      chunk.code.toList = [0, 0, 0, 1, 13] ∧
      (∀ offset, chunk.lines.lineAt? offset = [7, 7, 4, 4, 6][offset]?) ∧
      chunk.constants.toList.map chunk.objects.literal? =
        [some (.string [120, 59, 34]), some (.number ⟨0x3FF8000000000000⟩)] ∧
      chunk.objects.id = ⟨0⟩ ∧ chunk.objects.objects.toList = [[120, 59, 34]] := by
  have hnone : Blanks [] := nofun
  have hspace : Blanks [' '] := fun c hc => .inl (List.mem_singleton.1 hc)
  have htab : Blanks ['\t'] := fun c hc => .inr (List.mem_singleton.1 hc)
  have hsome : [' '] ≠ [] := List.cons_ne_nil _ _
  have hconst : Spells "CONST" "Const".toList := rfl
  have htagged : Names .constant "OP_Constant".toList := .inr rfl
  have hbare : Names .constant "constant".toList := .inl rfl
  have hreturn : Names .halt "return".toList := .inl rfl
  have hstring : WritesStatement (.constant (.string [120, 59, 34])) "Const \"x;\\\"\"".toList :=
    .withOperand (.constant hconst (.string ['x', ';', '"'])) hspace hsome
  have hindex : WritesStatement (.pushIndex 0) "OP_Constant #0".toList :=
    .withOperand (.pushIndex htagged ⟨rfl, rfl⟩) hspace hsome
  have hpush : WritesStatement (.pushLiteral (.number ⟨0x3FF8000000000000⟩))
      "constant 1.5".toList :=
    .withOperand (.pushLiteral hbare (.number (by decide))) hspace hsome
  have hseven : WritesNumber (some 7) ("07".toList ++ ([' '] ++ ':' :: [' '])) :=
    .present (by decide) (by decide) ⟨rfl, rfl⟩ hspace hspace
  have hfirst : WritesLine none ([] ++ ';' :: " a".toList) :=
    .nothing (.comment hnone (by decide))
  have hsecond : WritesLine (some ⟨_, none⟩)
      (['\t'] ++ (([] ++ "Const \"x;\\\"\"".toList) ++ ([' '] ++ ';' :: " b".toList))) :=
    .item htab .absent hstring (.comment hspace (by decide))
  have hthird : WritesLine (some ⟨_, some 7⟩) ([] ++ (("07 : ".toList ++ _) ++ [])) :=
    .item hnone hseven hindex (.blank hnone)
  have hfourth : WritesLine (some ⟨_, none⟩) ([] ++ (([] ++ _) ++ [])) :=
    .item hnone .absent hpush (.blank hnone)
  have hsixth : WritesLine (some ⟨_, none⟩) ([] ++ (([] ++ _) ++ [])) :=
    .item hnone .absent (.alone (by decide) hreturn) (.blank hnone)
  have hfifth : WritesLine none [] := .nothing (.blank hnone)
  have hlast := WritesListing.last hsixth (List.cons_ne_nil _ _)
  have hlines := WritesListing.feed hfirst (.returnFeed hsecond (.feed hthird
    (.feed hfourth (.feed hfifth hlast))))
  have hwritten : WritesListing _ mixedLayout.toList := hlines
  exact assemble_of_writes ⟨0⟩ hwritten (by decide) (hasRoom_of_length_le (by decide))

end ExprMachine.Assembly
