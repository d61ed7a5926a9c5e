import ExprMachine.Proofs.LineColumn

/-!
# Code read back from a listing

A listing shows strings as they are, so that its lines need not be its entries. Whoever knows what
it remarks on each constant can read it nevertheless: the words with which an entry begins tell what
stands at its offset, and with that how long the entry is.

* `Fetched.bytes` — the bytes of what stands at an offset;
* `Listing.wording`, `Listing.remark` — how a listing puts it, `instructionText_eq`;
* `Listing.fetchedOf` — what the first words of an entry say, `fetchedOf_wording`;
* `Listing.codeOf` — the code that a text shows, entry after entry, `codeOf_entries`;
* `Listing.code_eq_of_chunk_eq` — a listing determines the code.
-/

namespace ExprMachine

/-! ### The bytes at an offset -/

/-- The bytes of what is fetched. -/
def Fetched.bytes : Fetched → List UInt8
  | nothing => []
  | unknown byte => [byte]
  | bare => [OpCode.constant.toByte]
  | constant index => [OpCode.constant.toByte, index]
  | instruction op => [op.toByte]

/-- What is left of the code begins with what is fetched. -/
theorem Chunk.drop_eq_fetch (chunk : Chunk) (offset : Nat) :
    chunk.code.toList.drop offset = (chunk.fetch offset).bytes ++
      chunk.code.toList.drop (offset + (chunk.fetch offset).width) := by
  cases hbyte : chunk.code[offset]? with
  | none => simp [fetch, hbyte, Fetched.bytes, Fetched.width]
  | some byte =>
    rw [(Machine.drop_of_getElem? hbyte).2]
    cases hop : OpCode.ofByte? byte with
    | none => simp [fetch, hbyte, hop, Fetched.bytes, Fetched.width]
    | some op =>
      obtain rfl := OpCode.toByte_of_ofByte? hop
      cases op with
      | constant =>
        cases hindex : chunk.code[offset + 1]? with
        | none => simp [fetch, hbyte, hop, hindex, Fetched.bytes, Fetched.width]
        | some index =>
          rw [(Machine.drop_of_getElem? hindex).2]
          simp [fetch, hbyte, hop, hindex, Fetched.bytes, Fetched.width]
      | _ => simp [fetch, hbyte, hop, Fetched.bytes, Fetched.width]

theorem Chunk.fetch_ne_constant (chunk : Chunk) (offset : Nat) :
    chunk.fetch offset ≠ .instruction .constant := by
  unfold fetch
  split
  · exact nofun
  · split
    · exact nofun
    · split <;> exact nofun
    · rename_i op hconstant _
      intro heq
      exact hconstant (Fetched.instruction.inj heq)

namespace Listing

/-! ### Wordings -/

/-- How a listing puts what is fetched, with a remark on the constant of an index. -/
def wording (remark : UInt8 → String) : Fetched → String
  | .nothing => "<end of chunk>"
  | .unknown byte => "Unknown opcode " ++ toString byte
  | .bare => padRight 16 OpCode.constant.mnemonic ++ " <missing operand>"
  | .constant index => Reading.operandText index ++ " " ++ remark index
  | .instruction op => op.mnemonic

/-- What the listing of a chunk remarks on the constant of an index. -/
def remark (chunk : Chunk) (heap : Heap) (index : UInt8) : String :=
  match chunk.constants[index.toNat]? with
  | some v => "'" ++ shown (ownerOf chunk heap v) v ++ "'"
  | none => "<invalid constant>"

/-- Remarks depend on the constants and the strings of a chunk alone. -/
theorem remark_congr {a b : Chunk} (hconstants : a.constants = b.constants)
    (hobjects : a.objects = b.objects) (heap : Heap) : remark a heap = remark b heap := by
  have howner (v : Value) : ownerOf a heap v = ownerOf b heap v := by
    cases v with
    | object h => simp only [ownerOf, hobjects]
    | _ => rfl
  funext index
  simp only [remark, hconstants, howner]

theorem instructionText_eq (chunk : Chunk) (heap : Heap) (offset : Nat) :
    (instructionText chunk heap offset).1 =
      wording (remark chunk heap) (chunk.fetch offset) := by
  cases hbyte : chunk.code[offset]? with
  | none => simp only [instructionText, Chunk.fetch, hbyte, wording]
  | some byte =>
    cases hop : OpCode.ofByte? byte with
    | none =>
      simp only [instructionText, Chunk.fetch, hbyte, hop, wording]
      rfl
    | some op =>
      cases op with
      | constant =>
        simp only [instructionText, constantText, Chunk.fetch, hbyte, hop]
        cases chunk.code[offset + 1]? with
        | none => rfl
        | some index =>
          simp only [wording, remark]
          cases chunk.constants[index.toNat]? with
          | none => simp [Reading.operandText, ← String.toList_inj]
          | some v => simp [Reading.operandText, ← String.toList_inj]
      | _ => simp only [instructionText, Chunk.fetch, hbyte, hop, wording]

/-! ### Reading an entry -/

/-- What stands at the offset of an entry, by the three words behind its columns. -/
def said (name operand number : List Char) : Fetched :=
  if name = "Unknown".toList then .unknown (.ofNat (Numeral.value number))
  else
    match OpCode.ofMnemonic? name with
    | none => .nothing
    | some .constant =>
      if Numeral.isDigits operand then .constant (.ofNat (Numeral.value operand)) else .bare
    | some op => .instruction op

/-- What a text says that begins with the wording of an entry. -/
def fetchedOf (text : List Char) : Fetched :=
  let first := Text.firstWord text
  let second := Text.firstWord first.2
  said first.1 second.1 (Text.firstWord second.2).1

theorem said_mnemonic (op : OpCode) (operand number : List Char) :
    said op.mnemonic.toList operand number =
      if op = .constant then
        if Numeral.isDigits operand then .constant (.ofNat (Numeral.value operand)) else .bare
      else .instruction op := by
  have hunknown : op.mnemonic.toList ≠ "Unknown".toList := by cases op <;> decide
  have hop : OpCode.ofMnemonic? op.mnemonic.toList = some op := by cases op <;> decide
  rw [said, if_neg hunknown, hop]
  cases op <;> rfl

/-- One character or more, none of them blank. -/
def OneWord (s : List Char) : Prop := s ≠ [] ∧ ∀ c ∈ s, Text.isBlank c = false

/-- One character or more, all of them blank. -/
def Spacing (s : List Char) : Prop := s ≠ [] ∧ ∀ c ∈ s, Text.isBlank c = true

/-- Written out, a word is checked character by character. -/
theorem oneWord_of_all {s : List Char} (hne : s ≠ [])
    (hall : (s.all fun c => !Text.isBlank c) = true) : OneWord s :=
  ⟨hne, fun c hc => by simpa using List.all_eq_true.1 hall c hc⟩

theorem OneWord.firstWord_eq {word rest : List Char} {c : Char} (h : OneWord word)
    (hc : Text.isBlank c = true) : Text.firstWord (word ++ c :: rest) = (word, c :: rest) := by
  have hnone : ∀ c ∈ ([] : List Char), Text.isBlank c = true := nofun
  exact Text.firstWord_append hnone h.2 h.1 hc

/-- An entry whose wording has a second word. -/
theorem fetchedOf_words {name gap operand rest : List Char} {c : Char} (hname : OneWord name)
    (hgap : Spacing gap) (hoperand : OneWord operand) (hc : Text.isBlank c = true) :
    fetchedOf (name ++ (gap ++ (operand ++ c :: rest))) =
      said name operand (Text.firstWord (c :: rest)).1 := by
  have hsecond : Text.firstWord (gap ++ (operand ++ c :: rest)) = (operand, c :: rest) :=
    Text.firstWord_append hgap.2 hoperand.2 hoperand.1 hc
  obtain ⟨d, gap, rfl⟩ := List.exists_cons_of_ne_nil hgap.1
  have hfirst : Text.firstWord (name ++ (d :: gap ++ (operand ++ c :: rest))) =
      (name, d :: gap ++ (operand ++ c :: rest)) :=
    hname.firstWord_eq (hgap.2 d List.mem_cons_self)
  rw [fetchedOf, hfirst]
  simp only [hsecond]

theorem oneWord_mnemonic (op : OpCode) : OneWord op.mnemonic.toList := by
  cases op <;> exact oneWord_of_all (by decide) (by decide)

theorem oneWord_digitsOf (n : Nat) : OneWord (Decimal.digitsOf n) :=
  ⟨Numeral.digitsOf_ne_nil n, fun _ hc => isBlank_of_mem_digitsOf hc⟩

theorem spacing_replicate (n : Nat) : Spacing (List.replicate (n + 1) ' ') := by
  constructor
  · exact List.cons_ne_nil _ _
  · intro c hc
    rw [(List.mem_replicate.1 hc).2]
    rfl

theorem toList_paddedName : (padRight 16 OpCode.constant.mnemonic).toList =
    OpCode.constant.mnemonic.toList ++ List.replicate 5 ' ' := by decide

/-- **The first words of an entry tell what is fetched.** -/
theorem fetchedOf_wording (remark : UInt8 → String) {fetched : Fetched}
    (h : fetched ≠ .instruction .constant) (rest : List Char) :
    fetchedOf ((wording remark fetched).toList ++ '\n' :: rest) = fetched := by
  have hspace : Text.isBlank ' ' = true := rfl
  have hfeed : Text.isBlank '\n' = true := rfl
  have hdigits (byte : UInt8) : (toString byte).toList = Decimal.digitsOf byte.toNat :=
    toList_toString _
  cases fetched with
  | nothing =>
    have htext : (wording remark .nothing).toList ++ '\n' :: rest =
        "<end".toList ++ (List.replicate 1 ' ' ++ ("of".toList ++
          ' ' :: ("chunk>".toList ++ '\n' :: rest))) := by simp [wording]
    rw [htext, fetchedOf_words (oneWord_of_all (by decide) (by decide)) (spacing_replicate 0)
      (oneWord_of_all (by decide) (by decide)) hspace]
    rfl
  | unknown byte =>
    have htext : (wording remark (.unknown byte)).toList ++ '\n' :: rest =
        "Unknown".toList ++ (List.replicate 1 ' ' ++ ("opcode".toList ++
          ' ' :: (Decimal.digitsOf byte.toNat ++ '\n' :: rest))) := by
      simp [wording, hdigits]
    have hnumber : Text.firstWord (' ' :: (Decimal.digitsOf byte.toNat ++ '\n' :: rest)) =
        (Decimal.digitsOf byte.toNat, '\n' :: rest) :=
      Text.firstWord_append (spacing_replicate 0).2 (oneWord_digitsOf _).2 (oneWord_digitsOf _).1
        hfeed
    rw [htext, fetchedOf_words (oneWord_of_all (by decide) (by decide)) (spacing_replicate 0)
      (oneWord_of_all (by decide) (by decide)) hspace, hnumber, said, if_pos rfl,
      Numeral.value_digitsOf, UInt8.ofNat_toNat]
  | bare =>
    have htext : (wording remark .bare).toList ++ '\n' :: rest =
        OpCode.constant.mnemonic.toList ++ (List.replicate 6 ' ' ++ ("<missing".toList ++
          ' ' :: ("operand>".toList ++ '\n' :: rest))) := by
      simp [wording, toList_paddedName]
    rw [htext, fetchedOf_words (oneWord_mnemonic _) (spacing_replicate 5)
      (oneWord_of_all (by decide) (by decide)) hspace, said_mnemonic]
    rfl
  | constant index =>
    have htext : (wording remark (.constant index)).toList ++ '\n' :: rest =
        OpCode.constant.mnemonic.toList ++
          (List.replicate (5 + (4 - (toString index).length) + 1) ' ' ++
            (Decimal.digitsOf index.toNat ++ ' ' :: ((remark index).toList ++ '\n' :: rest))) := by
      rw [Nat.add_assoc, List.replicate_add]
      simp [wording, Reading.operandText, toList_paddedName, toList_padLeft, hdigits,
        List.replicate_succ]
    rw [htext, fetchedOf_words (oneWord_mnemonic _) (spacing_replicate _) (oneWord_digitsOf _)
      hspace, said_mnemonic, if_pos rfl, if_pos (Numeral.isDigits_digitsOf _), Numeral.value_digitsOf,
      UInt8.ofNat_toNat]
  | instruction op =>
    have hop : op ≠ .constant := fun heq => h (congrArg Fetched.instruction heq)
    rw [wording, fetchedOf, (oneWord_mnemonic op).firstWord_eq hfeed, said_mnemonic, if_neg hop]

/-! ### Reading a listing -/

/-- What stands behind the columns of an entry. -/
def behindColumns (text : List Char) : List Char :=
  (Text.firstWord (Text.firstWord text).2).2.drop 1

theorem length_behindColumns_le (text : List Char) : (behindColumns text).length ≤ text.length := by
  have hword (s : List Char) : (Text.firstWord s).2.length ≤ s.length :=
    ((List.dropWhile_sublist _).trans (List.dropWhile_sublist _)).length_le
  have hfirst := hword text
  have hsecond := hword (Text.firstWord text).2
  rw [behindColumns, List.length_drop]
  omega

/-- The code that the entries of a text show, if `remark` is what they remark on constants. -/
def codeOf (remark : UInt8 → String) (text : List Char) : List UInt8 :=
  if text = [] then []
  else
    let fetched := fetchedOf (behindColumns text)
    fetched.bytes ++
      codeOf remark ((behindColumns text).drop ((wording remark fetched).toList.length + 1))
termination_by text.length
decreasing_by
  rename_i hne
  have hpos := List.length_pos_iff.2 hne
  have hle := length_behindColumns_le text
  rw [List.length_drop]
  omega

theorem codeOf_nil (remark : UInt8 → String) : codeOf remark [] = [] := by
  rw [codeOf, if_pos rfl]

variable {chunk : Chunk} {offset : Nat}

/-- The line column is one word, with blanks before it. -/
theorem exists_lineColumn (chunk : Chunk) (offset : Nat) :
    ∃ blanks word, (lineColumn chunk offset).toList = blanks ++ word ∧
      (∀ c ∈ blanks, Text.isBlank c = true) ∧ OneWord word := by
  have hthree : ∀ c ∈ List.replicate 3 ' ', Text.isBlank c = true := (spacing_replicate 2).2
  unfold lineColumn
  split
  · exact ⟨List.replicate 3 ' ', ['?'], by decide, hthree, oneWord_of_all (by decide) (by decide)⟩
  · rename_i line _
    split
    · exact ⟨List.replicate 3 ' ', ['|'], by decide, hthree,
        oneWord_of_all (by decide) (by decide)⟩
    · refine ⟨List.replicate (4 - (toString line).length) ' ', Decimal.digitsOf line, ?_, ?_,
        oneWord_digitsOf line⟩
      · rw [toList_padLeft, toList_toString]
      · intro c hc
        rw [(List.mem_replicate.1 hc).2]
        rfl

/-- The entry of an offset is read, and the text behind it is left. -/
theorem codeOf_entry (chunk : Chunk) (heap : Heap) (offset : Nat) (rest : List Char) :
    codeOf (remark chunk heap) ((entry chunk heap offset).toList ++ '\n' :: rest) =
      (chunk.fetch offset).bytes ++ codeOf (remark chunk heap) rest := by
  obtain ⟨blanks, word, hcolumn, hblanks, hword⟩ := exists_lineColumn chunk offset
  have htext : (entry chunk heap offset).toList ++ '\n' :: rest =
      (padLeft '0' 4 (toString offset) ++ " " ++ lineColumn chunk offset ++ " ").toList ++
        ((wording (remark chunk heap) (chunk.fetch offset)).toList ++ '\n' :: rest) := by
    rw [← instructionText_eq, ← List.append_assoc, ← String.toList_append]
    rfl
  have hbehind : behindColumns ((entry chunk heap offset).toList ++ '\n' :: rest) =
      (wording (remark chunk heap) (chunk.fetch offset)).toList ++ '\n' :: rest := by
    rw [behindColumns, htext, firstWord_columns offset hcolumn hblanks hword.2 hword.1]
    rfl
  have hne : (entry chunk heap offset).toList ++ '\n' :: rest ≠ [] :=
    List.append_ne_nil_of_right_ne_nil _ (List.cons_ne_nil _ _)
  rw [codeOf, if_neg hne]
  simp only [hbehind, fetchedOf_wording _ (chunk.fetch_ne_constant offset)]
  rw [← List.drop_drop, List.drop_left]
  rfl

/-- **The code is read back** from its entries, from any of them on. -/
theorem codeOf_entries (heap : Heap) (h : offset ≤ chunk.size) :
    codeOf (remark chunk heap)
        (String.join ((entries chunk heap offset).map (· ++ "\n"))).toList =
      chunk.code.toList.drop offset := by
  rw [entries_eq_sweep heap h]
  refine Chunk.sweep_induction (P := fun offset => codeOf (remark chunk heap)
    (String.join (((chunk.sweep offset).map (entry chunk heap)).map (· ++ "\n"))).toList =
      chunk.code.toList.drop offset) ?_ ?_ h
  · have hend : chunk.code.toList.drop chunk.size = [] := List.drop_length
    rw [Chunk.sweep_of_le (Nat.le_refl _), hend]
    exact codeOf_nil _
  · intro offset hlt ih
    have hnext : (String.join (((chunk.sweep offset).map (entry chunk heap)).map
        (· ++ "\n"))).toList = (entry chunk heap offset).toList ++
          '\n' :: (String.join (((chunk.sweep (offset + chunk.widthAt offset)).map
            (entry chunk heap)).map (· ++ "\n"))).toList := by
      rw [Chunk.sweep_of_lt hlt]
      simp [String.join_cons]
    rw [hnext, codeOf_entry, ih, chunk.drop_eq_fetch offset, Chunk.fetch_width hlt]

/-- **A listing determines the code.** Two chunks with the same constants and the same strings whose
listings are the same text, whatever strings and fake entries stand in it, have the same bytes of
code, instructions or not. -/
theorem code_eq_of_chunk_eq (a b : Chunk) (heap : Heap) (title : String)
    (hconstants : a.constants = b.constants) (hobjects : a.objects = b.objects)
    (h : Listing.chunk a heap title = Listing.chunk b heap title) : a.code = b.code := by
  have hentries : (String.join ((entries a heap 0).map (· ++ "\n"))).toList =
      (String.join ((entries b heap 0).map (· ++ "\n"))).toList := by
    have htext := congrArg String.toList h
    simp only [Listing.chunk, String.toList_append] at htext
    exact List.append_cancel_left htext
  have ha := codeOf_entries heap (Nat.zero_le a.size)
  have hb := codeOf_entries heap (Nat.zero_le b.size)
  rw [List.drop_zero] at ha hb
  rw [← Array.toList_inj, ← ha, ← hb, hentries, remark_congr hconstants hobjects]

/-- The text of the constant looks like the end of its entry and one more entry, before and after it
stand bytes that are no whole instructions, and the lines of the operand, which no listing shows,
differ. -/
theorem code_eq_of_chunk_eq_fake_entry :
    let fake := Text.Utf8.encode "'\n0003    | OP_NIL".toList
    let objects := (Heap.alloc { id := ⟨0⟩ } fake).2
    let constants := #[Value.object ⟨⟨0⟩, 0⟩]
    let a := Chunk.ofWrites constants objects [(14, 1), (0, 1), (0, 2), (0, 4)]
    let b := Chunk.ofWrites constants objects [(14, 1), (0, 1), (0, 3), (0, 4)]
    a.lines.lineAt? 2 ≠ b.lines.lineAt? 2 ∧ a.constants = b.constants ∧ a.objects = b.objects ∧
      Listing.chunk a { id := ⟨1⟩ } "t" = Listing.chunk b { id := ⟨1⟩ } "t" ∧ a.code = b.code := by
  intro fake objects constants a b
  have hconstants : a.constants = b.constants := rfl
  have hobjects : a.objects = b.objects := rfl
  have hlisting : Listing.chunk a { id := ⟨1⟩ } "t" = Listing.chunk b { id := ⟨1⟩ } "t" := by
    decide +kernel
  exact ⟨by decide +kernel, hconstants, hobjects, hlisting,
    code_eq_of_chunk_eq a b { id := ⟨1⟩ } "t" hconstants hobjects hlisting⟩

end Listing

end ExprMachine
