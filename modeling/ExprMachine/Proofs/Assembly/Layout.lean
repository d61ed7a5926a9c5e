import Mathlib.Data.Bool.AllAny
import ExprMachine.Assembly.Statement
import ExprMachine.Proofs.Assembly.Quoting
import ExprMachine.Proofs.Number.ReadBack

/-!
# Lines of assembly as they are written

Every way to write a statement on a line: names in any case of letters, spaces and tabs around the
parts, a line number before it and a comment behind it. However it is written, it is read back.

* `Blanks`, `Trailing` — spaces and tabs, and what may stand at the end of a line;
* `WritesNat`, `WritesLiteral`, `Names` — numbers, literals and names of instructions;
* `WritesOperand`, `WritesStatement` — statements; `WritesNumber`, `WritesLine` — lines;
* `Part` — what the passes over a line need to know of its parts;
* `Label` — line numbers among any blanks, `Label.readLineNumber_eq` how they are read;
* `readStatement_of_writes`, `readLineNumber_of_writes`, `readLine_of_writes` — the readers.
-/

namespace ExprMachine.Assembly

/-! ### Ways to write -/

/-- Spaces and tabs. -/
def Blanks (s : List Char) : Prop := ∀ c ∈ s, c = ' ' ∨ c = '\t'

/-- What may stand behind the statement of a line: blanks, and then a comment. -/
inductive Trailing : List Char → Prop
  | blank {s : List Char} : Blanks s → Trailing s
  | comment {s text : List Char} : Blanks s → '\n' ∉ text → Trailing (s ++ ';' :: text)

/-- A natural number in digits. -/
def WritesNat (n : Nat) (s : List Char) : Prop := Numeral.isDigits s = true ∧ Numeral.value s = n

/-- A literal: a word, a number with the digits that it is printed with, or a quoted string. -/
inductive WritesLiteral : Literal → List Char → Prop
  | nil : WritesLiteral .nil "nil".toList
  | bool (b : Bool) : WritesLiteral (.bool b) (if b then "true" else "false").toList
  | number {x : Binary64} : x.isNaN = false → WritesLiteral (.number x) x.toText
  | string (cs : List Char) : WritesLiteral (.string (Text.Utf8.encode cs)) (quoted cs)

/-- A name in any case of letters. -/
def Spells (name : String) (s : List Char) : Prop := s.map Char.toUpper = name.toList

/-- The name of an instruction, with or without the tag. -/
def Names (op : OpCode) (s : List Char) : Prop := Spells op.bareName s ∨ Spells op.mnemonic s

/-- The name of a statement that has an operand, and the operand. -/
inductive WritesOperand : Statement → List Char → List Char → Prop
  | pushLiteral {x : Literal} {name operand : List Char} : Names .constant name →
      WritesLiteral x operand → WritesOperand (.pushLiteral x) name operand
  | pushIndex {k : UInt8} {name digits : List Char} : Names .constant name →
      WritesNat k.toNat digits → WritesOperand (.pushIndex k) name ('#' :: digits)
  | constant {x : Literal} {name operand : List Char} : Spells "CONST" name →
      WritesLiteral x operand → WritesOperand (.constant x) name operand
  | byte {b : UInt8} {name digits : List Char} : Spells "BYTE" name →
      WritesNat b.toNat digits → WritesOperand (.byte b) name digits

/-- A statement: its name, and blanks before the operand if it has one. -/
inductive WritesStatement : Statement → List Char → Prop
  | alone {op : OpCode} {name : List Char} : op ≠ .constant → Names op name →
      WritesStatement (.op op) name
  | withOperand {statement : Statement} {name gap operand : List Char} :
      WritesOperand statement name operand → Blanks gap → gap ≠ [] →
      WritesStatement statement (name ++ (gap ++ operand))

/-- A statement, and the source line it is said to be of. -/
structure Item where
  statement : Statement
  line? : Option Nat := none
  deriving DecidableEq, Repr

/-- The statement of an item that stands on the line `number`, with the line that it is of. -/
def Item.placed (number : Nat) (item : Item) : Statement × Nat :=
  (item.statement, item.line?.getD number)

/-- The source line of an item with its colon, if it has one. -/
inductive WritesNumber : Option Nat → List Char → Prop
  | absent : WritesNumber none []
  | present {n : Nat} {digits before after : List Char} : 1 ≤ n → n ≤ maxLine →
      WritesNat n digits → Blanks before → Blanks after →
      WritesNumber (some n) (digits ++ (before ++ ':' :: after))

/-- A line, with an item or without one. -/
inductive WritesLine : Option Item → List Char → Prop
  | nothing {rest : List Char} : Trailing rest → WritesLine none rest
  | item {item : Item} {front number body rest : List Char} : Blanks front →
      WritesNumber item.line? number → WritesStatement item.statement body → Trailing rest →
      WritesLine (some item) (front ++ ((number ++ body) ++ rest))

theorem writesNat_digitsOf (n : Nat) : WritesNat n (Decimal.digitsOf n) :=
  ⟨Numeral.isDigits_digitsOf n, Numeral.value_digitsOf n⟩

/-! ### Characters -/

/-- A character that neither separates parts nor changes what follows it. -/
structure Plain (c : Char) : Prop where
  isBlank_eq : Text.isBlank c = false
  ne_semicolon : c ≠ ';'
  ne_quote : c ≠ '"'

instance (c : Char) : Decidable (Plain c) :=
  decidable_of_iff (Text.isBlank c = false ∧ c ≠ ';' ∧ c ≠ '"')
    ⟨fun ⟨hblank, hsemicolon, hquote⟩ => ⟨hblank, hsemicolon, hquote⟩,
      fun h => ⟨h.isBlank_eq, h.ne_semicolon, h.ne_quote⟩⟩

/-- A capital letter, or the underscore of the tag. -/
def IsCapital (c : Char) : Prop := 65 ≤ c.toNat ∧ c.toNat ≤ 90 ∨ c.toNat = 95

instance (c : Char) : Decidable (IsCapital c) := inferInstanceAs (Decidable (_ ∨ _))

/-- A name in capitals. -/
def Capitals (name : String) : Prop := ∀ c ∈ name.toList, IsCapital c

instance (name : String) : Decidable (Capitals name) := List.decidableBAll _ _

/-- A character of a name. -/
def IsLetter (c : Char) : Prop := 97 ≤ c.toNat ∧ c.toNat ≤ 122 ∨ IsCapital c

theorem isLetter_of_toUpper {c : Char} (h : IsCapital c.toUpper) : IsLetter c := by
  by_cases hsmall : 'a'.val ≤ c.val ∧ c.val ≤ 'z'.val
  · exact .inl ⟨UInt32.le_iff_toNat_le.1 hsmall.1, UInt32.le_iff_toNat_le.1 hsmall.2⟩
  · have hsame : c.toUpper = c := dif_neg hsmall
    rw [hsame] at h
    exact .inr h

theorem IsLetter.plain {c : Char} (h : IsLetter c) : Plain c := by
  unfold IsLetter IsCapital at h
  refine ⟨Text.isBlank_of_toNat (by omega) (by omega), ?_, ?_⟩
  · rintro rfl
    simp at h
  · rintro rfl
    simp at h

theorem IsLetter.isDigit_eq {c : Char} (h : IsLetter c) : c.isDigit = false := by
  unfold IsLetter IsCapital at h
  rw [← Bool.not_eq_true, Char.isDigit_iff_toNat]
  simp only [Char.reduceToNat]
  omega

theorem plain_of_isDigit {c : Char} (h : c.isDigit = true) : Plain c := by
  refine ⟨Text.isBlank_of_isDigit h, ?_, ?_⟩
  · rintro rfl
    simp at h
  · rintro rfl
    simp at h

theorem Blanks.isBlank {s : List Char} (h : Blanks s) : ∀ c ∈ s, Text.isBlank c = true := by
  intro c hc
  rcases h c hc with rfl | rfl <;> decide

/-! ### Parts of a line -/

/-- A part of a line: solid, without a comment and on one line. -/
structure Part (s : List Char) : Prop where
  solid : Text.Solid s
  closed : Closed s
  feedless : '\n' ∉ s

theorem part_of_plain {s : List Char} (hne : s ≠ []) (h : ∀ c ∈ s, Plain c) : Part s where
  solid := Text.solid_of_all hne fun c hc => (h c hc).isBlank_eq
  closed := closed_of_plain fun c hc => ⟨(h c hc).ne_semicolon, (h c hc).ne_quote⟩
  feedless := by
    intro hfeed
    have hblank := (h '\n' hfeed).isBlank_eq
    revert hblank
    decide

theorem Blanks.closed {s : List Char} (h : Blanks s) : Closed s := by
  apply closed_of_plain
  intro c hc
  rcases h c hc with rfl | rfl <;> decide

theorem Blanks.feedless {s : List Char} (h : Blanks s) : '\n' ∉ s := by
  intro hfeed
  rcases h '\n' hfeed with heq | heq <;> cases heq

/-- Two parts with blanks between them. -/
theorem Part.append {s gap t : List Char} (hs : Part s) (hgap : Blanks gap) (ht : Part t) :
    Part (s ++ (gap ++ t)) where
  solid := hs.solid.append ht.solid gap
  closed := hs.closed.append (hgap.closed.append ht.closed)
  feedless := by
    intro hfeed
    rcases List.mem_append.1 hfeed with hs' | hrest
    · exact hs.feedless hs'
    · rcases List.mem_append.1 hrest with hgap' | ht'
      · exact hgap.feedless hgap'
      · exact ht.feedless ht'

theorem quoted_part (cs : List Char) : Part (quoted cs) :=
  ⟨solid_quoted cs, closed_quoted cs, feed_not_mem_quoted cs⟩

section Numbers

variable {n : Nat} {s : List Char} (h : WritesNat n s)

include h

theorem WritesNat.isDigit : ∀ c ∈ s, c.isDigit = true := by
  have hdigits := (Bool.and_eq_true_iff.1 h.1).2
  exact List.all_eq_true.1 hdigits

theorem WritesNat.ne_nil : s ≠ [] := of_decide_eq_true (Bool.and_eq_true_iff.1 h.1).1

theorem WritesNat.part : Part s :=
  part_of_plain h.ne_nil fun c hc => plain_of_isDigit (h.isDigit c hc)

/-- A number that is written in digits is read, up to any bound that it keeps. -/
theorem WritesNat.atMost? {bound : Nat} (hn : n ≤ bound) : Numeral.atMost? bound s = some n := by
  obtain ⟨c, rest, rfl⟩ := List.exists_cons_of_ne_nil h.ne_nil
  have hdigit := h.isDigit c List.mem_cons_self
  have hplus : c ≠ '+' := by
    rintro rfl
    cases hdigit
  have hvalue : Numeral.value (c :: rest) ≤ bound := h.2.symm ▸ hn
  have hboth : (Numeral.isDigits (c :: rest) && decide (Numeral.value (c :: rest) ≤ bound)) =
      true := by rw [h.1, decide_eq_true hvalue]; rfl
  unfold Numeral.atMost?
  split
  · rename_i heq
    cases heq
    exact absurd rfl hplus
  · exact (if_pos hboth).trans (congrArg some h.2)

end Numbers

/-- An index with its mark. -/
theorem hash_part {n : Nat} {s : List Char} (h : WritesNat n s) : Part ('#' :: s) := by
  refine part_of_plain (List.cons_ne_nil _ _) ?_
  intro c hc
  rcases List.mem_cons.1 hc with rfl | hdigit
  · exact ⟨by decide, by decide, by decide⟩
  · exact plain_of_isDigit (h.isDigit c hdigit)

/-- A number up to 255 is read as the byte. -/
theorem WritesNat.byte? {b : UInt8} {s : List Char} (h : WritesNat b.toNat s) :
    byte? s = some b := by
  rw [Assembly.byte?, h.atMost? (Nat.le_of_lt_succ b.toNat_lt), Option.map_some, UInt8.ofNat_toNat]

/-! ### Literals -/

/-- The words of literals, and texts that begin like strings and indices, are not numbers. -/
theorem toText_ne {x : Binary64} (h : x.isNaN = false) {s : List Char}
    (hs : Numeral.binary64? s = none) : x.toText ≠ s := by
  rintro rfl
  rw [Binary64.binary64?_toText h] at hs
  cases hs

theorem toText_plain {x : Binary64} (h : x.isNaN = false) : ∀ c ∈ x.toText, Plain c := by
  intro c hc
  rcases Binary64.mem_toText h hc with hdigit | hother
  · exact plain_of_isDigit hdigit
  · have hall : ∀ c ∈ ['-', '.', 'i', 'n', 'f'], Plain c := List.all_iff_forall_prop.1 (by decide)
    exact hall c hother

/-- The text of a number begins with none of the characters that mark other operands. -/
theorem head?_toText_ne {x : Binary64} (h : x.isNaN = false) {c : Char}
    (hdigit : c.isDigit = false) (hother : c ∉ ['-', '.', 'i', 'n', 'f']) :
    x.toText.head? ≠ some c := by
  intro hhead
  rcases Binary64.mem_toText h (List.mem_of_head? hhead) with hdigit' | hmem
  · rw [hdigit] at hdigit'
    cases hdigit'
  · exact hother hmem

theorem WritesLiteral.part {x : Literal} {s : List Char} (h : WritesLiteral x s) : Part s := by
  cases h with
  | nil => exact part_of_plain (by decide) (List.all_iff_forall_prop.1 (by decide))
  | bool b => cases b <;> exact part_of_plain (by decide) (List.all_iff_forall_prop.1 (by decide))
  | number hx => exact part_of_plain (toText_ne hx (by decide)) (toText_plain hx)
  | string cs => exact quoted_part cs

/-- **A literal is read as what it writes.** -/
theorem readLiteral_of_writes {x : Literal} {s : List Char} (h : WritesLiteral x s) :
    readLiteral s = .ok x := by
  cases h with
  | nil => rfl
  | bool b => cases b <;> rfl
  | number hx =>
    have hempty := toText_ne hx (s := []) (by decide)
    have hnil := toText_ne hx (s := "nil".toList) (by decide)
    have htrue := toText_ne hx (s := "true".toList) (by decide)
    have hfalse := toText_ne hx (s := "false".toList) (by decide)
    have hquote := head?_toText_ne hx (c := '"') (by decide) (by decide)
    rw [readLiteral, if_neg hempty, if_neg hnil, if_neg htrue, if_neg hfalse, if_neg hquote,
      Binary64.binary64?_toText hx]
  | string cs =>
    have hword (w : List Char) (hw : w.head? ≠ some '"') : quoted cs ≠ w := by
      rintro rfl
      exact hw rfl
    have hquote : (quoted cs).head? = some '"' := rfl
    rw [readLiteral, if_neg (hword [] (by decide)), if_neg (hword _ (by decide)),
      if_neg (hword _ (by decide)), if_neg (hword _ (by decide)), if_pos hquote, readQuoted_quoted]

/-- A literal is not taken for an index. -/
theorem readConstant_of_writes {x : Literal} {s : List Char} (h : WritesLiteral x s) :
    readConstant s = .ok (.pushLiteral x) := by
  have hliteral := readLiteral_of_writes h
  have hhash : s.head? ≠ some '#' := by
    cases h with
    | nil => decide
    | bool b => cases b <;> decide
    | number hx => exact head?_toText_ne hx (by decide) (by decide)
    | string cs => exact nofun
  unfold readConstant
  split
  · exact absurd rfl hhash
  · rw [hliteral]
    rfl

/-! ### Names -/

section Names

variable {name : String} {op : OpCode} {s : List Char}

theorem Spells.letters (h : Spells name s) (hname : Capitals name) : ∀ c ∈ s, IsLetter c := by
  intro c hc
  have hupper : c.toUpper ∈ name.toList := by
    rw [← h]
    exact List.mem_map_of_mem hc
  exact isLetter_of_toUpper (hname _ hupper)

theorem Spells.ne_nil (h : Spells name s) (hname : name.toList ≠ []) : s ≠ [] := by
  rintro rfl
  exact hname h.symm

theorem capitals_mnemonic (op : OpCode) : Capitals op.bareName ∧ Capitals op.mnemonic := by
  cases op <;> decide

theorem Names.letters (h : Names op s) : ∀ c ∈ s, IsLetter c := by
  obtain ⟨hbare, hmnemonic⟩ := capitals_mnemonic op
  rcases h with h | h
  · exact h.letters hbare
  · exact h.letters hmnemonic

theorem Names.ne_nil (h : Names op s) : s ≠ [] := by
  rcases h with h | h
  · exact h.ne_nil (by cases op <;> decide)
  · exact h.ne_nil (by cases op <;> decide)

/-- Names are recognised, and no name of an instruction is one of the two other words. -/
theorem Names.recognised (h : Names op s) :
    OpCode.ofMnemonic? s = some op ∧ s.map Char.toUpper ≠ "CONST".toList ∧
      s.map Char.toUpper ≠ "BYTE".toList := by
  unfold OpCode.ofMnemonic?
  rcases h with h | h
  · rw [show s.map Char.toUpper = op.bareName.toList from h]
    cases op <;> decide
  · rw [show s.map Char.toUpper = op.mnemonic.toList from h]
    cases op <;> decide

end Names

/-! ### Statements -/

/-- A name that is alone. -/
theorem splitOnce_name {name : List Char} (h : ∀ c ∈ name, IsLetter c) :
    Text.splitOnce Text.isBlank name = none :=
  Text.splitOnce_eq_none fun c hc => (h c hc).plain.isBlank_eq

/-- A name with an operand behind it. -/
theorem splitOnce_operand {name gap operand : List Char} (h : ∀ c ∈ name, IsLetter c)
    (hgap : ∀ c ∈ gap, Text.isBlank c = true) (hne : gap ≠ []) (hoperand : Text.Solid operand) :
    ∃ rest, Text.splitOnce Text.isBlank (name ++ (gap ++ operand)) = some (name, rest) ∧
      Text.trim rest = operand := by
  obtain ⟨c, gap, rfl⟩ := List.exists_cons_of_ne_nil hne
  refine ⟨gap ++ operand, ?_, ?_⟩
  · exact Text.splitOnce_append (fun c hc => (h c hc).plain.isBlank_eq)
      (hgap c List.mem_cons_self) _
  · exact Text.trim_blank_append (fun c hc => hgap c (List.mem_cons_of_mem _ hc)) hoperand

section Operands

variable {statement : Statement} {name operand : List Char}
  (h : WritesOperand statement name operand)

include h

theorem WritesOperand.letters : ∀ c ∈ name, IsLetter c := by
  cases h with
  | pushLiteral hnames _ => exact hnames.letters
  | pushIndex hnames _ => exact hnames.letters
  | constant hspells _ => exact hspells.letters (by decide)
  | byte hspells _ => exact hspells.letters (by decide)

theorem WritesOperand.name_ne_nil : name ≠ [] := by
  cases h with
  | pushLiteral hnames _ => exact hnames.ne_nil
  | pushIndex hnames _ => exact hnames.ne_nil
  | constant hspells _ => exact hspells.ne_nil (by decide)
  | byte hspells _ => exact hspells.ne_nil (by decide)

theorem WritesOperand.part : Part operand := by
  cases h with
  | pushLiteral _ hoperand => exact hoperand.part
  | pushIndex _ hdigits => exact hash_part hdigits
  | constant _ hoperand => exact hoperand.part
  | byte _ hdigits => exact hdigits.part

end Operands

/-- **A statement is read as what it writes.** -/
theorem readStatement_of_writes {statement : Statement} {s : List Char}
    (h : WritesStatement statement s) : readStatement s = .ok statement := by
  cases h with
  | @alone op name hconstant hname =>
    obtain ⟨hop, hconst, hbyte⟩ := hname.recognised
    unfold readStatement
    rw [splitOnce_name hname.letters]
    simp only [if_neg hconst, if_neg hbyte, hop]
    cases op with
    | constant => exact absurd rfl hconstant
    | _ => rfl
  | @withOperand statement name gap operand hwrites hgap hne =>
    obtain ⟨rest, hsplit, htrim⟩ :=
      splitOnce_operand hwrites.letters hgap.isBlank hne hwrites.part.solid
    unfold readStatement
    rw [hsplit]
    cases hwrites with
    | pushLiteral hname hoperand =>
      obtain ⟨hop, hconst, hbyte⟩ := hname.recognised
      simp only [if_neg hconst, if_neg hbyte, hop, htrim]
      exact readConstant_of_writes hoperand
    | pushIndex hname hdigits =>
      obtain ⟨hop, hconst, hbyte⟩ := hname.recognised
      simp only [if_neg hconst, if_neg hbyte, hop, htrim, readConstant, hdigits.byte?]
    | constant hname hoperand =>
      have hconst : name.map Char.toUpper = "CONST".toList := hname
      simp only [if_pos hconst, htrim, readLiteral_of_writes hoperand]
      rfl
    | byte hname hdigits =>
      have hbyte : name.map Char.toUpper = "BYTE".toList := hname
      have hconst : name.map Char.toUpper ≠ "CONST".toList := by
        rw [hbyte]
        decide
      simp only [if_neg hconst, if_pos hbyte, htrim, hdigits.byte?]

/-- A statement is a part of its line, and begins with a letter. -/
theorem WritesStatement.part {statement : Statement} {s : List Char}
    (h : WritesStatement statement s) :
    Part s ∧ ∃ c rest, s = c :: rest ∧ IsLetter c := by
  have hname {t : List Char} (hne : t ≠ []) (hall : ∀ c ∈ t, IsLetter c) :
      Part t ∧ ∃ c rest, t = c :: rest ∧ IsLetter c := by
    refine ⟨part_of_plain hne fun c hc => (hall c hc).plain, ?_⟩
    obtain ⟨c, rest, rfl⟩ := List.exists_cons_of_ne_nil hne
    exact ⟨c, rest, rfl, hall c List.mem_cons_self⟩
  cases h with
  | alone _ hnames => exact hname hnames.ne_nil hnames.letters
  | @withOperand statement name gap operand hwrites hgap _ =>
    obtain ⟨hpart, c, rest, rfl, hc⟩ := hname hwrites.name_ne_nil hwrites.letters
    exact ⟨hpart.append hgap hwrites.part, c, rest ++ (gap ++ operand), rfl, hc⟩

/-! ### Line numbers -/

/-- Text that trimming leaves nothing of. -/
def AllBlank (s : List Char) : Prop := ∀ c ∈ s, Text.isBlank c = true

instance (s : List Char) : Decidable (AllBlank s) := List.decidableBAll _ _

/-- The number of a source line with its colon, if there is one, among any blanks. -/
inductive Label : Option Nat → List Char → Prop
  | absent : Label none []
  | present {n : Nat} {digits before after : List Char} : 1 ≤ n → n ≤ maxLine →
      WritesNat n digits → AllBlank before → AllBlank after →
      Label (some n) (digits ++ (before ++ ':' :: after))

theorem WritesNumber.label {line? : Option Nat} {number : List Char}
    (h : WritesNumber line? number) : Label line? number := by
  cases h with
  | absent => exact .absent
  | present hpos hmax hdigits hbefore hafter =>
    exact .present hpos hmax hdigits hbefore.isBlank hafter.isBlank

/-- What begins with a letter has no line number, whatever colons it has. -/
theorem readLineNumber_of_letter {c : Char} (hc : IsLetter c) (rest : List Char) (line : Nat) :
    readLineNumber line (c :: rest) = .ok (line, c :: rest) := by
  have hcolon : ¬ c = ':' := by
    rintro rfl
    simp [IsLetter, IsCapital] at hc
  unfold readLineNumber
  cases hsplit : Text.splitOnce (· = ':') (c :: rest) with
  | none => rfl
  | some cut =>
    obtain ⟨before, after⟩ := cut
    -- The text before the colon begins with the letter, which is no digit.
    have hbefore : ∃ tail, before = c :: tail := by
      unfold Text.splitOnce at hsplit
      split at hsplit
      · cases hsplit
      · cases hsplit
        exact ⟨_, List.takeWhile_cons_of_pos (by simp [hcolon])⟩
    obtain ⟨tail, rfl⟩ := hbefore
    have hall : (Text.trim (c :: tail)).all Char.isDigit = false := by
      rw [← Bool.not_eq_true, List.all_eq_true]
      intro hall
      have hdigit := hall c (Text.mem_trim_cons hc.plain.isBlank_eq tail)
      rw [hc.isDigit_eq] at hdigit
      cases hdigit
    simp only [hall, Bool.not_false, or_true, if_true]

/-- **The number is read**, and what stands behind the colon is left. -/
theorem Label.readLineNumber_eq {line? : Option Nat} {label body : List Char}
    (h : Label line? label) (hbody : Text.Solid body)
    (hbegins : ∃ c rest, body = c :: rest ∧ IsLetter c) (line : Nat) :
    readLineNumber line (label ++ body) = .ok (line?.getD line, body) := by
  cases h with
  | absent =>
    obtain ⟨c, rest, rfl, hc⟩ := hbegins
    exact readLineNumber_of_letter hc rest line
  | @present n digits before after hpos hmax hdigits hbefore hafter =>
    have hcolon : ∀ c ∈ digits ++ before, decide (c = ':') = false := by
      intro c hc
      refine decide_eq_false ?_
      rintro rfl
      rcases List.mem_append.1 hc with hdigit | hblank
      · cases hdigits.isDigit ':' hdigit
      · cases hbefore ':' hblank
    have hsplit : Text.splitOnce (· = ':') (digits ++ (before ++ ':' :: after) ++ body) =
        some (digits ++ before, after ++ body) := by
      have hassoc : digits ++ (before ++ ':' :: after) ++ body =
          (digits ++ before) ++ ':' :: (after ++ body) := by
        simp only [List.append_assoc, List.cons_append]
      rw [hassoc]
      exact Text.splitOnce_append hcolon (decide_eq_true rfl) _
    have hnumber : Text.trim (digits ++ before) = digits :=
      Text.trim_append_blank hdigits.part.solid hbefore
    have hrest : Text.trim (after ++ body) = body := Text.trim_blank_append hafter hbody
    have hsome : digits ++ before ≠ [] := List.append_ne_nil_of_left_ne_nil hdigits.ne_nil _
    have hall : digits.all Char.isDigit = true := List.all_eq_true.2 hdigits.isDigit
    obtain ⟨k, rfl⟩ := Nat.exists_eq_add_of_le' hpos
    unfold readLineNumber
    rw [hsplit]
    simp only [hnumber, hall, hsome, Bool.not_true, Bool.false_eq_true, or_self, if_false,
      hdigits.atMost? hmax, hrest, Option.getD_some]

/-- **A line number is read as what it writes**, and what stands behind it is left. -/
theorem readLineNumber_of_writes {line? : Option Nat} {number body : List Char}
    (h : WritesNumber line? number) (hpart : Part body)
    (hbegins : ∃ c rest, body = c :: rest ∧ IsLetter c) (line : Nat) :
    readLineNumber line (number ++ body) = .ok (line?.getD line, body) :=
  h.label.readLineNumber_eq hpart.solid hbegins line

/-! ### Lines -/

/-- With its line number in front a statement is still one part of its line. -/
theorem WritesNumber.part {line? : Option Nat} {number body : List Char}
    (h : WritesNumber line? number) (hbody : Part body) : Part (number ++ body) := by
  cases h with
  | absent => exact hbody
  | @present n digits before after _ _ hdigits hbefore hafter =>
    have hcolon : Part [':'] := by
      refine part_of_plain (List.cons_ne_nil _ _) ?_
      intro c hc
      rw [List.mem_singleton.1 hc]
      exact ⟨by decide, by decide, by decide⟩
    have hassoc : digits ++ (before ++ ':' :: after) ++ body =
        digits ++ (before ++ ([':'] ++ (after ++ body))) := by
      simp only [List.append_assoc, List.cons_append, List.nil_append]
    rw [hassoc]
    exact hdigits.part.append hbefore (hcolon.append hafter hbody)

/-- Of what stands at the end of a line only blanks are left without the comment. -/
theorem dropComment_trailing {s rest : List Char} (hs : Closed s) (h : Trailing rest) :
    ∃ back, Blanks back ∧ dropComment (s ++ rest) = s ++ back := by
  cases h with
  | blank hback => exact ⟨rest, hback, dropComment_of_closed (hs.append hback.closed)⟩
  | @comment back text hback _ =>
    refine ⟨back, hback, ?_⟩
    rw [← List.append_assoc]
    exact dropComment_comment (hs.append hback.closed) text

/-- A line on which something stands is read part by part. -/
theorem readLine_of_ne_nil {number : Nat} (h : number ≤ maxLine) {line text : List Char}
    (htext : Text.trim (dropComment line) = text) (hne : text ≠ []) :
    readLine number line = (readLineNumber number text).bind fun found =>
      (readStatement found.2).map fun statement => some (statement, found.1) := by
  unfold readLine
  simp only [htext, if_neg hne, if_neg (Nat.not_lt.2 h)]
  rfl

/-- **A line is read as what it writes**: its item, which is of the line's own number unless it has
one, or nothing. -/
theorem readLine_of_writes {line? : Option Item} {s : List Char} (h : WritesLine line? s)
    {number : Nat} (hnumber : number ≤ maxLine) :
    readLine number s = .ok (line?.map (Item.placed number)) := by
  cases h with
  | nothing hrest =>
    obtain ⟨back, hback, hdrop⟩ := dropComment_trailing closed_nil hrest
    have htrim : Text.trim (dropComment s) = [] := by
      rw [← List.nil_append s, hdrop]
      exact Text.trim_of_blank hback.isBlank
    unfold readLine
    exact if_pos htrim
  | @item item front digits body rest hfront hdigits hbody hrest =>
    obtain ⟨hpart, hbegins⟩ := hbody.part
    -- The passes in their order: comment, blanks, line number, statement.
    have hwhole : Part (digits ++ body) := hdigits.part hpart
    obtain ⟨back, hback, hdrop⟩ :=
      dropComment_trailing (hfront.closed.append hwhole.closed) hrest
    have htrim : Text.trim (dropComment (front ++ ((digits ++ body) ++ rest))) =
        digits ++ body := by
      rw [← List.append_assoc, hdrop, List.append_assoc]
      exact Text.trim_eq hfront.isBlank hwhole.solid hback.isBlank
    have hread := readLineNumber_of_writes hdigits hpart hbegins number
    rw [readLine_of_ne_nil hnumber htrim hwhole.solid.ne_nil, hread]
    show (readStatement body).map _ = _
    rw [readStatement_of_writes hbody]
    rfl

/-- What stands at the end of a line does not end the line. -/
theorem Trailing.feedless {s : List Char} (h : Trailing s) : '\n' ∉ s := by
  cases h with
  | blank hback => exact hback.feedless
  | comment hback htext =>
    intro hfeed
    rcases List.mem_append.1 hfeed with hblank | hcomment
    · exact hback.feedless hblank
    · rcases List.mem_cons.1 hcomment with hsemicolon | hrest
      · cases hsemicolon
      · exact htext hrest

theorem WritesLine.feedless {line? : Option Item} {s : List Char} (h : WritesLine line? s) :
    '\n' ∉ s := by
  cases h with
  | nothing hrest => exact hrest.feedless
  | item hfront hdigits hbody hrest =>
    have hwhole := hdigits.part hbody.part.1
    intro hfeed
    rcases List.mem_append.1 hfeed with hblank | hfeed
    · exact hfront.feedless hblank
    · rcases List.mem_append.1 hfeed with hpart | hback
      · exact hwhole.feedless hpart
      · exact hrest.feedless hback

/-- A carriage return at the end of a line can only be the end of its comment. -/
theorem dropReturn_trailing {s rest : List Char} (hs : s.getLast? ≠ some '\r')
    (h : Trailing rest) :
    ∃ rest', Trailing rest' ∧ Text.dropReturn '\r' (s ++ rest) = s ++ rest' := by
  have hkept {t : List Char} (ht : Trailing t) (hlast : (s ++ t).getLast? ≠ some '\r') :
      ∃ rest', Trailing rest' ∧ Text.dropReturn '\r' (s ++ t) = s ++ rest' :=
    ⟨t, ht, if_neg hlast⟩
  cases h with
  | blank hback =>
    refine hkept (.blank hback) ?_
    rw [List.getLast?_append]
    cases hlast : rest.getLast? with
    | none => exact hs
    | some c =>
      intro heq
      cases heq
      rcases hback '\r' (List.mem_of_getLast? hlast) with heq | heq <;> cases heq
  | @comment back text hback htext =>
    -- A comment without text ends with its semicolon.
    by_cases hnil : text = []
    · subst hnil
      refine hkept (.comment hback htext) ?_
      rw [← List.append_assoc, List.getLast?_concat]
      decide
    · have hfewer : '\n' ∉ Text.dropReturn '\r' text :=
        fun hfeed => htext (Text.mem_of_mem_dropReturn hfeed)
      have hassoc (t : List Char) : s ++ (back ++ ';' :: t) = (s ++ (back ++ [';'])) ++ t := by
        simp only [List.append_assoc, List.cons_append, List.nil_append]
      refine ⟨_, .comment hback hfewer, ?_⟩
      rw [hassoc text, Text.dropReturn_append hnil]
      exact (hassoc _).symm

/-- A line that loses a carriage return to its line end is written as well. -/
theorem WritesLine.dropReturn {line? : Option Item} {s : List Char} (h : WritesLine line? s) :
    WritesLine line? (Text.dropReturn '\r' s) := by
  cases h with
  | nothing hrest =>
    obtain ⟨rest', hrest', hdrop⟩ := dropReturn_trailing (s := []) nofun hrest
    rw [← List.nil_append s, hdrop]
    exact .nothing hrest'
  | @item item front digits body rest hfront hdigits hbody hrest =>
    have hwhole := hdigits.part hbody.part.1
    have hlast : (front ++ (digits ++ body)).getLast? ≠ some '\r' := by
      obtain ⟨start, c, hends, hc⟩ := hwhole.solid.ends
      rw [hends, ← List.append_assoc, List.getLast?_concat]
      rintro heq
      cases heq
      cases hc
    obtain ⟨rest', hrest', hdrop⟩ := dropReturn_trailing hlast hrest
    rw [← List.append_assoc, hdrop, List.append_assoc]
    exact .item hfront hdigits hbody hrest'

end ExprMachine.Assembly
