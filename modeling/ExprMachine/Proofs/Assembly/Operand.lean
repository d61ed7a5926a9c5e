import ExprMachine.Proofs.Assembly.Lines
import ExprMachine.Proofs.Assembly.Strings

/-!
# Quoted operands

What becomes of a line with a literal that begins with a quote: when it is accepted, which constant
it adds, and what a comment behind it changes.

* `Keyword`, `Lead`, `OperandLine` — lines with a quoted operand;
* `OperandLine.readLine_eq`, `OperandLine.refusal?_eq_none` — reading such a line;
* `OperandLine.comment`, `OperandLine.comment_open` — the line with a semicolon behind it;
* `assemble_quoted_operand` — the same for listings with the line;
* `inner_quotes_accepted` — operands that are accepted with more than two quotes.
-/

namespace ExprMachine.Assembly

/-! ### Lines with a quoted operand -/

/-- The two words that a literal stands behind. -/
inductive Keyword where
  | const
  | constant
  deriving DecidableEq, Repr

def Keyword.Spelled : Keyword → List Char → Prop
  | const, name => Spells "CONST" name
  | constant, name => Names .constant name

def Keyword.statement : Keyword → Literal → Statement
  | const => .constant
  | constant => .pushLiteral

/-- Only for an instruction the index of the constant must fit a byte. -/
def Keyword.HasRoom (count : Nat) : Keyword → Prop
  | const => True
  | constant => count < constantLimit

/-- What stands before an operand. -/
inductive Lead (keyword : Keyword) (line? : Option Nat) : List Char → Prop
  | intro {front label name gap : List Char} : AllBlank front → Label line? label →
      keyword.Spelled name → AllBlank gap → gap ≠ [] →
      Lead keyword line? (front ++ (label ++ (name ++ gap)))

/-- A line that without its comment is a keyword and an operand that begins with a quote. -/
inductive OperandLine (keyword : Keyword) (line? : Option Nat) (operand line : List Char) : Prop
  | intro {lead back : List Char} : Lead keyword line? lead → Text.Solid operand →
      operand.head? = some '"' → AllBlank back → dropComment line = lead ++ (operand ++ back) →
      OperandLine keyword line? operand line

theorem AllBlank.strict {s : List Char} (h : AllBlank s) {c : Char} (hc : c ∈ s) :
    Strict c ∧ c ≠ ';' := by
  have hblank := h c hc
  refine ⟨⟨?_, ?_⟩, ?_⟩
  all_goals
    rintro rfl
    cases hblank

theorem AllBlank.closed {s : List Char} (h : AllBlank s) : Closed s :=
  closed_of_plain fun _ hc => ⟨(h.strict hc).2, (h.strict hc).1.2⟩

/-- Blanks in a string are in the string. -/
theorem AllBlank.quoted_after {s : List Char} (h : AllBlank s) :
    Mode.quoted.after s = .quoted := by
  induction s with
  | nil => rfl
  | cons c s ih =>
    show (Mode.quoted.next c).after s = .quoted
    rw [quoted_next (h.strict List.mem_cons_self).1]
    exact ih fun d hd => h d (List.mem_cons_of_mem _ hd)

section Keyword

variable {keyword : Keyword} {name : List Char} (h : keyword.Spelled name)

include h

theorem Keyword.Spelled.letters : ∀ c ∈ name, IsLetter c := by
  cases keyword with
  | const => exact Spells.letters h (by decide)
  | constant => exact Names.letters h

theorem Keyword.Spelled.ne_nil : name ≠ [] := by
  cases keyword with
  | const => exact Spells.ne_nil h (by decide)
  | constant => exact Names.ne_nil h

theorem Keyword.Spelled.part : Part name :=
  part_of_plain h.ne_nil fun c hc => (h.letters c hc).plain

/-- A keyword passes its operand to the reader for literals. -/
theorem Keyword.Spelled.readStatement_eq {gap operand : List Char} (hgap : AllBlank gap)
    (hne : gap ≠ []) (hsolid : Text.Solid operand) (hquote : operand.head? = some '"') :
    readStatement (name ++ (gap ++ operand)) = (readLiteral operand).map keyword.statement := by
  obtain ⟨rest, hsplit, htrim⟩ := splitOnce_operand h.letters hgap hne hsolid
  unfold readStatement
  rw [hsplit]
  cases keyword with
  | const =>
    have hconst : name.map Char.toUpper = "CONST".toList := h
    simp only [if_pos hconst, htrim]
    rfl
  | constant =>
    obtain ⟨hop, hconst, hbyte⟩ := Names.recognised h
    simp only [if_neg hconst, if_neg hbyte, hop, htrim]
    unfold readConstant
    split
    · cases hquote
    · rfl

end Keyword

theorem readLiteral_quote {s : List Char} (h : s.head? = some '"') :
    readLiteral s = ((readQuoted s).mapError Fault.quote).map fun cs =>
      .string (Text.Utf8.encode cs) := by
  have hword (w : List Char) (hw : w.head? ≠ some '"') : s ≠ w := by
    rintro rfl
    exact hw h
  rw [readLiteral, if_neg (hword [] (by decide)), if_neg (hword _ (by decide)),
    if_neg (hword _ (by decide)), if_neg (hword _ (by decide)), if_pos h]
  cases readQuoted s <;> rfl

section Label

variable {line? : Option Nat} {label : List Char} (h : Label line? label)

include h

theorem Label.closed : Closed label := by
  cases h with
  | absent => exact closed_nil
  | present _ _ hdigits hbefore hafter =>
    have hmark : ∀ c ∈ [':'], c ≠ ';' ∧ c ≠ '"' :=
      List.forall_mem_singleton.2 ⟨by decide, by decide⟩
    have hcolon : Closed (':' :: _) := (closed_of_plain hmark).append hafter.closed
    exact hdigits.part.closed.append (hbefore.closed.append hcolon)

theorem Label.solid {body : List Char} (hbody : Text.Solid body) : Text.Solid (label ++ body) := by
  cases h with
  | absent => exact hbody
  | present _ _ hdigits _ _ =>
    rw [List.append_assoc]
    exact hdigits.part.solid.append hbody _

end Label

section Lead

variable {keyword : Keyword} {line? : Option Nat} {lead : List Char}
  (h : Lead keyword line? lead)

include h

/-- No quote stands before the operand. -/
theorem Lead.closed : Closed lead := by
  obtain ⟨hfront, hlabel, hname, hgap, -⟩ := h
  exact hfront.closed.append (hlabel.closed.append (hname.part.closed.append hgap.closed))

/-- What is left of a line is read part by part. -/
theorem Lead.read {operand back : List Char} (hsolid : Text.Solid operand)
    (hquote : operand.head? = some '"') (hback : AllBlank back) :
    ∃ text, Text.trim (lead ++ (operand ++ back)) = text ∧ text ≠ [] ∧
      ∀ number, ((readLineNumber number text).bind fun found =>
        (readStatement found.2).map fun statement => some (statement, found.1)) =
          (readLiteral operand).map fun x => some (keyword.statement x, line?.getD number) := by
  obtain @⟨front, label, name, gap, hfront, hlabel, hname, hgap, hne⟩ := h
  have hbody : Text.Solid (name ++ (gap ++ operand)) := hname.part.solid.append hsolid gap
  have hwhole : Text.Solid (label ++ (name ++ (gap ++ operand))) := hlabel.solid hbody
  refine ⟨label ++ (name ++ (gap ++ operand)), ?_, hwhole.ne_nil, ?_⟩
  · have hassoc : front ++ (label ++ (name ++ gap)) ++ (operand ++ back) =
        front ++ (label ++ (name ++ (gap ++ operand)) ++ back) := by simp only [List.append_assoc]
    rw [hassoc]
    exact Text.trim_eq hfront hwhole hback
  · intro number
    have hbegins : ∃ c rest, name ++ (gap ++ operand) = c :: rest ∧ IsLetter c := by
      obtain ⟨c, rest, rfl⟩ := List.exists_cons_of_ne_nil hname.ne_nil
      exact ⟨c, rest ++ (gap ++ operand), rfl, hname.letters c List.mem_cons_self⟩
    rw [hlabel.readLineNumber_eq hbody hbegins number]
    show (readStatement (name ++ (gap ++ operand))).map _ = _
    rw [hname.readStatement_eq hgap hne hsolid hquote]
    cases readLiteral operand <;> rfl

end Lead

section OperandLine

variable {keyword : Keyword} {line? : Option Nat} {operand line : List Char}
  (h : OperandLine keyword line? operand line)

include h

theorem OperandLine.head_eq : operand.head? = some '"' := by
  cases h
  assumption

/-- **A line is read by its operand alone.** -/
theorem OperandLine.readLine_eq (number : Nat) :
    readLine number line = if maxLine < number then .error .tooManyLines
      else (readLiteral operand).map fun x => some (keyword.statement x, line?.getD number) := by
  obtain ⟨hlead, hsolid, hquote, hback, hdrop⟩ := h
  obtain ⟨text, htrim, hne, hread⟩ := hlead.read hsolid hquote hback
  rw [← hdrop] at htrim
  by_cases hmany : maxLine < number
  · unfold readLine
    simp only [htrim, if_neg hne, if_pos hmany]
  · rw [readLine_of_ne_nil (Nat.le_of_not_lt hmany) htrim hne, hread, if_neg hmany]

/-- A line is refused unless its operand is a string, and there is room for the constant. -/
theorem OperandLine.refusal?_eq_none {number : Nat} (hnumber : number ≤ maxLine) (count : Nat) :
    refusal? number count line = none ↔
      (∃ cs, Quotes Loose operand cs) ∧ keyword.HasRoom count := by
  have hread := h.readLine_eq number
  rw [if_neg (Nat.not_lt.2 hnumber), readLiteral_quote h.head_eq] at hread
  unfold refusal?
  cases hquoted : readQuoted operand with
  | error e =>
    rw [hquoted] at hread
    rw [hread]
    refine ⟨nofun, ?_⟩
    rintro ⟨⟨cs, hcs⟩, -⟩
    rw [readQuoted_iff.2 hcs] at hquoted
    cases hquoted
  | ok cs =>
    have hcs : ∃ cs, Quotes Loose operand cs := ⟨cs, readQuoted_iff.1 hquoted⟩
    rw [hquoted] at hread
    rw [hread]
    cases keyword with
    | const => exact ⟨fun _ => ⟨hcs, trivial⟩, fun _ => rfl⟩
    | constant =>
      show (if count < constantLimit then none else some Fault.tooManyConstants) = none ↔ _
      by_cases hroom : count < constantLimit
      · exact ⟨fun _ => ⟨hcs, hroom⟩, fun _ => if_pos hroom⟩
      · rw [if_neg hroom]
        exact ⟨nofun, fun hboth => absurd hboth.2 hroom⟩

theorem OperandLine.item?_eq {number : Nat} (hnumber : number ≤ maxLine) {cs : List Char}
    (hcs : Quotes Loose operand cs) :
    item? number line =
      some (keyword.statement (.string (Text.Utf8.encode cs)), line?.getD number) := by
  have hread := h.readLine_eq number
  rw [if_neg (Nat.not_lt.2 hnumber), readLiteral_quote h.head_eq, readQuoted_iff.2 hcs] at hread
  unfold item?
  rw [hread]
  rfl

/-- Behind a string that ends where the operand does, a comment changes nothing. -/
theorem OperandLine.comment (hcode : Mode.code.after operand = .code) (text : List Char) :
    OperandLine keyword line? operand (line ++ ' ' :: ';' :: text) := by
  obtain ⟨hlead, hsolid, hquote, hback, hdrop⟩ := h
  rename_i lead back
  have hspace : AllBlank [' '] := fun c hc => by
    rw [List.mem_singleton.1 hc]
    rfl
  rcases uncommented_or_closed line with hline | ⟨front, comment, rfl, hfront⟩
  · rw [dropComment_of_uncommented hline] at hdrop
    have hafter : Mode.code.after line = .code := by
      rw [hdrop, Mode.after_append, hlead.closed.after_eq, Mode.after_append, hcode,
        hback.closed.after_eq]
    have hassoc : line ++ ' ' :: ';' :: text = (line ++ [' ']) ++ ';' :: text := by
      rw [List.append_assoc, List.singleton_append]
    have hclosed : Closed (line ++ [' ']) :=
      Closed.append ⟨hline, hafter⟩ hspace.closed
    have hback' : AllBlank (back ++ [' ']) :=
      fun c hc => (List.mem_append.1 hc).elim (hback c) (hspace c)
    refine .intro hlead hsolid hquote hback' ?_
    rw [hassoc, dropComment_comment hclosed, hdrop]
    simp only [List.append_assoc]
  · refine .intro hlead hsolid hquote hback ?_
    rw [dropComment_comment hfront] at hdrop
    rw [List.append_assoc, List.cons_append, dropComment_comment hfront, hdrop]

/-- In a string that is open at the end of the line a semicolon begins no comment. -/
theorem OperandLine.comment_open (hopen : Mode.code.after operand = .quoted) :
    ∃ start, OperandLine keyword line? (start ++ [';']) (line ++ [' ', ';']) := by
  obtain ⟨hlead, hsolid, hquote, hback, hdrop⟩ := h
  rename_i lead back
  have hafter : Mode.code.after (dropComment line) = .quoted := by
    rw [hdrop, Mode.after_append, hlead.closed.after_eq, Mode.after_append, hopen,
      hback.quoted_after]
  rcases uncommented_or_closed line with hline | ⟨front, comment, rfl, hfront⟩
  · have hsemicolon : Uncommented .quoted [' ', ';'] := ⟨nofun, nofun, trivial⟩
    rw [dropComment_of_uncommented hline] at hdrop hafter
    have hnone : AllBlank [] := nofun
    refine ⟨operand ++ (back ++ [' ']), .intro hlead ?_ ?_ hnone ?_⟩
    · obtain ⟨c, rest, rfl, hc⟩ := hsolid.begins
      exact ⟨⟨c, _, rfl, hc⟩, ⟨_, ';', rfl, rfl⟩⟩
    · obtain ⟨rest, rfl⟩ := List.head?_eq_some_iff.1 hquote
      rfl
    · rw [dropComment_of_uncommented (uncommented_append hline (hafter.symm ▸ hsemicolon)), hdrop]
      simp only [List.append_assoc, List.append_nil, List.cons_append, List.nil_append]
  · rw [dropComment_comment hfront, hfront.after_eq] at hafter
    cases hafter

end OperandLine

/-! ### Listings -/

section Listings

variable {keyword : Keyword} {line? : Option Nat} {operand line : List Char} {id : HeapId}
  {source source' : String} (h : OperandLine keyword line? operand line)

include h

theorem OperandLine.assemble_iff {chunk : Chunk} (hchunk : assemble id source = .ok chunk)
    (hlength : (sourceLines source).length < maxLine)
    (hlines : sourceLines source' = sourceLines source ++ [line]) :
    (∃ larger, assemble id source' = .ok larger) ↔
      (∃ cs, Quotes Loose operand cs) ∧ keyword.HasRoom chunk.constants.size := by
  have hnumber : 1 + (sourceLines source).length ≤ maxLine := by omega
  have hlast : assemble id source' = addLines chunk (1 + (sourceLines source).length) [line] := by
    have hall : assemble id source' = addLines (.empty id) 1 (sourceLines source ++ [line]) :=
      congrArg _ hlines
    rw [hall, addLines_append, show addLines (.empty id) 1 (sourceLines source) = _ from hchunk]
    rfl
  rw [← h.refusal?_eq_none hnumber, hlast, addLines]
  constructor
  · rintro ⟨larger, hlarger⟩
    rw [Option.eq_none_iff_forall_not_mem]
    intro fault hfault
    rw [addLine_of_refusal hfault] at hlarger
    cases hlarger
  · intro hnone
    obtain ⟨larger, hlarger, -⟩ := addLine_of_none hnone
    exact ⟨larger, by rw [hlarger]; rfl⟩

theorem OperandLine.constants_eq {chunk larger : Chunk} (hchunk : assemble id source = .ok chunk)
    (hlength : (sourceLines source).length < maxLine)
    (hlines : sourceLines source' = sourceLines source ++ [line])
    (hlarger : assemble id source' = .ok larger) {cs : List Char}
    (hcs : Quotes Loose operand cs) :
    larger.constants.toList.map larger.objects.literal? =
      chunk.constants.toList.map chunk.objects.literal? ++
        [some (.string (Text.Utf8.encode cs))] := by
  have hnumber : 1 + (sourceLines source).length ≤ maxLine := by omega
  have hitem := h.item?_eq hnumber hcs
  have hpooled : pooledOf (items (1 + (sourceLines source).length) [line]) =
      [.string (Text.Utf8.encode cs)] := by
    rw [items, hitem]
    cases keyword <;> rfl
  have hgains := (assemble_outcome id source').gains hlarger
  rw [((assemble_outcome id source).gains hchunk).constants_of_empty, hgains.constants_of_empty,
    hlines, items_append, pooledOf_append, hpooled, List.map_append]
  rfl

/-- Reading does not depend on what follows the string. -/
theorem OperandLine.assemble_comment {before after : List (List Char)} {text : List Char}
    (hcode : Mode.code.after operand = .code)
    (hlines : sourceLines source = before ++ line :: after)
    (hlines' : sourceLines source' = before ++ (line ++ ' ' :: ';' :: text) :: after) :
    assemble id source' = assemble id source := by
  have hread (number : Nat) : readLine number (line ++ ' ' :: ';' :: text) =
      readLine number line := by rw [(h.comment hcode text).readLine_eq, h.readLine_eq]
  have hall : assemble id source = addLines (.empty id) 1 (before ++ line :: after) :=
    congrArg _ hlines
  have hall' : assemble id source' =
      addLines (.empty id) 1 (before ++ (line ++ ' ' :: ';' :: text) :: after) :=
    congrArg _ hlines'
  rw [hall, hall', addLines_replace hread]

theorem OperandLine.assemble_comment_open {before after : List (List Char)}
    (hopen : Mode.code.after operand = .quoted)
    (hlines' : sourceLines source' = before ++ (line ++ [' ', ';']) :: after) :
    ∃ e, assemble id source' = .error e := by
  obtain ⟨start, hline⟩ := h.comment_open hopen
  obtain ⟨fault, hfault⟩ : ∃ fault,
      readLine (1 + before.length) (line ++ [' ', ';']) = .error fault := by
    rw [hline.readLine_eq, readLiteral_quote hline.head_eq]
    cases hread : readQuoted (start ++ [';']) with
    | error e =>
      split
      · exact ⟨_, rfl⟩
      · exact ⟨_, rfl⟩
    | ok cs => exact absurd (readQuoted_iff.1 hread) (not_quotes_concat (by decide))
  refine (assemble_outcome id source').exists_error_iff.2 ⟨before.length, fault, ?_⟩
  rw [refusalAt?, hlines', List.getElem?_append_right (Nat.le_refl _), Nat.sub_self]
  exact refusal?_eq_some_iff.2 (.inl hfault)

end Listings

/-- **What a quoted operand is.** Its line is accepted when it is two quotes around a body in which
every backslash has a character behind it, and the constant is that string. That is more than the
strings whose inner quotes all have a backslash: these are the ones that the reader for comments
sees end only once. A comment behind an operand that is accepted changes nothing if that reader
takes all strings in it for ended; else the line is refused with a semicolon behind it. -/
theorem assemble_quoted_operand {keyword : Keyword} {line? : Option Nat} {operand line : List Char}
    (h : OperandLine keyword line? operand line) (id : HeapId) :
    (∀ source source' chunk, assemble id source = .ok chunk →
      (sourceLines source).length < maxLine → sourceLines source' = sourceLines source ++ [line] →
      ((∃ larger, assemble id source' = .ok larger) ↔
        (∃ cs, Quotes Loose operand cs) ∧ keyword.HasRoom chunk.constants.size) ∧
      ∀ larger cs, assemble id source' = .ok larger → Quotes Loose operand cs →
        larger.constants.toList.map larger.objects.literal? =
          chunk.constants.toList.map chunk.objects.literal? ++
            [some (.string (Text.Utf8.encode cs))]) ∧
      (∀ cs, (Quotes Strict operand cs ↔ Quotes Loose operand cs ∧ EndsOnce operand) ∧
        (Quotes Strict operand cs → Mode.code.after operand = .code)) ∧
      ∀ cs, Quotes Loose operand cs → ∀ before after source,
        sourceLines source = before ++ line :: after →
        (Mode.code.after operand = .code → ∀ text source',
          sourceLines source' = before ++ (line ++ ' ' :: ';' :: text) :: after →
          assemble id source' = assemble id source) ∧
        (Mode.code.after operand ≠ .code → ∀ source',
          sourceLines source' = before ++ (line ++ [' ', ';']) :: after →
          ∃ e, assemble id source' = .error e) := by
  refine ⟨?_, fun cs => ⟨quotes_strict_iff, Quotes.after_strict⟩, ?_⟩
  · intro source source' chunk hchunk hlength hlines
    exact ⟨h.assemble_iff hchunk hlength hlines, fun larger cs hlarger hcs =>
      h.constants_eq hchunk hlength hlines hlarger hcs⟩
  · intro cs hcs before after source hlines
    exact ⟨fun hcode text source' hlines' => h.assemble_comment hcode hlines hlines',
      fun hopen source' hlines' =>
        h.assemble_comment_open (hcs.after_eq.resolve_left hopen) hlines'⟩

/-- A numbered line with blanks of several kinds, and a quote with its backslash. -/
theorem assemble_quoted_operand_escaped :
    let line := " 2\u00a0:\tConst \"a\\\"b\" ; c".toList
    let operand := "\"a\\\"b\"".toList
    OperandLine .const (some 2) operand line ∧
      (∃ larger, assemble ⟨0⟩ "CONST nil\n 2\u00a0:\tConst \"a\\\"b\" ; c" = .ok larger ∧
        larger.constants.toList.map larger.objects.literal? =
          [some .nil, some (.string [97, 34, 98])]) ∧
      assemble ⟨0⟩ "CONST nil\n 2\u00a0:\tConst \"a\\\"b\" ; c ; d\nNIL" =
        assemble ⟨0⟩ "CONST nil\n 2\u00a0:\tConst \"a\\\"b\" ; c\nNIL" := by
  intro line operand
  have hspace : AllBlank [' '] := by decide
  have hbefore : AllBlank ['\u00a0'] := by decide
  have hafter : AllBlank ['\t'] := by decide
  have hname : Keyword.const.Spelled "Const".toList := rfl
  have hnumber : WritesNat 2 ['2'] := ⟨rfl, rfl⟩
  have hlabel : Label (some 2) "2\u00a0:\t".toList :=
    .present (by decide) (by decide) hnumber hbefore hafter
  have hlead : Lead .const (some 2) " 2\u00a0:\tConst ".toList :=
    .intro hspace hlabel hname hspace (List.cons_ne_nil _ _)
  have hsolid : Text.Solid operand :=
    ⟨⟨'"', _, rfl, rfl⟩, ⟨"\"a\\\"b".toList, '"', rfl, rfl⟩⟩
  have h : OperandLine .const (some 2) operand line :=
    .intro hlead hsolid rfl hspace (by decide)
  have hcs : Quotes Loose operand ['a', '"', 'b'] := readQuoted_iff.1 rfl
  obtain ⟨haccept, hstrict, hcomment⟩ := assemble_quoted_operand h ⟨0⟩
  obtain ⟨hiff, hconstants⟩ := haccept "CONST nil"
    "CONST nil\n 2\u00a0:\tConst \"a\\\"b\" ; c" ((Chunk.empty ⟨0⟩).addConstant .nil)
    rfl (by decide +kernel) (by decide +kernel)
  obtain ⟨larger, hlarger⟩ := hiff.2 ⟨⟨_, hcs⟩, trivial⟩
  refine ⟨h, ⟨larger, hlarger, hconstants larger _ hlarger hcs⟩, ?_⟩
  exact (hcomment _ hcs ["CONST nil".toList] ["NIL".toList] _ (by decide +kernel)).1
    (by decide +kernel) " d".toList _ (by decide +kernel)

/-- Two strings are taken for one, and so is a string with a quote in it, until a comment is put
behind it. -/
theorem inner_quotes_accepted :
    OperandLine .constant none "\"a\" \"b\"".toList "CONSTANT \"a\" \"b\"".toList ∧
      (∃ chunk, assemble ⟨0⟩ "CONSTANT \"a\" \"b\"" = .ok chunk ∧
        chunk.constants.toList.map chunk.objects.literal? =
          [some (.string [97, 34, 32, 34, 98])]) ∧
      (¬ ∃ cs, Quotes Strict "\"a\" \"b\"".toList cs) ∧
      (∃ chunk, assemble ⟨0⟩ "CONSTANT \"a\"b\"" = .ok chunk) ∧
      ∃ e, assemble ⟨0⟩ "CONSTANT \"a\"b\" ; x" = .error e := by
  have hnone : AllBlank [] := nofun
  have hspace : AllBlank [' '] := by decide
  have hname : Keyword.constant.Spelled "CONSTANT".toList := .inl rfl
  have hlead : Lead .constant none "CONSTANT ".toList :=
    .intro hnone .absent hname hspace (List.cons_ne_nil _ _)
  have hsolid : Text.Solid "\"a\" \"b\"".toList :=
    ⟨⟨'"', _, rfl, rfl⟩, ⟨"\"a\" \"b".toList, '"', rfl, rfl⟩⟩
  refine ⟨.intro hlead hsolid rfl hnone (by decide), ⟨_, rfl, by decide⟩, ?_, ⟨_, rfl⟩, ⟨_, rfl⟩⟩
  -- The reader for comments is outside behind the second quote.
  rintro ⟨cs, hcs⟩
  have hends := (quotes_strict_iff.1 hcs).2 "\"a\"".toList (by decide) (by decide) (by decide)
  revert hends
  decide

end ExprMachine.Assembly
