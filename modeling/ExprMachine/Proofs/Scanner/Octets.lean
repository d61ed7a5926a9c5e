import ExprMachine.Proofs.Scanner.Pieces
import ExprMachine.Proofs.Scanner.Utf8

/-!
# Scanning bytes

The lexer reads characters. A scanner that reads the bytes of the same text, one after the other,
gives the same answers: no byte of a longer character is taken for a character of its own.

* `ByteScanner` — the scanner over bytes, its loops and its calls;
* `ByteScanner.At` — the scanner stands between two characters of a text;
* `ByteScanner.Follows` — it stands where a cursor stands, on the same line;
* `ByteScanner.next_of_follows` — a call of each keeps them together, with the same answer.
-/

namespace ExprMachine

/-! ### The scanner -/

open Text.Utf8

/-- What a call answers: a token with the bytes of its text, text that is no token, or the end. -/
inductive Answer where
  | token (kind : TokenKind) (text : List UInt8) (line : UInt32)
  | error (e : LexicalError) (line : UInt32)
  | endOfText (line : UInt32)
  deriving DecidableEq, Repr

/-- The answer for a text of some shape. -/
def Answer.of (shape : Except LexicalError TokenKind) (text : List UInt8) (line : UInt32) :
    Answer :=
  match shape with
  | .ok kind => .token kind text line
  | .error e => .error e line

/-- The answer that an item is. -/
def Item.answer : Item → Answer
  | .token t => .token t.kind (encode t.text) (UInt32.ofNat t.line)
  | .error e line => .error e (UInt32.ofNat line)
  | .endOfText line => .endOfText (UInt32.ofNat line)

theorem Lexeme.answer_item (lexeme : Lexeme) (line : Nat) :
    (lexeme.item line).answer = .of lexeme.shape (encode lexeme.text) (UInt32.ofNat line) := by
  cases h : lexeme.shape with
  | ok kind => simp only [Lexeme.item, h, Item.answer, Answer.of]
  | error e => simp only [Lexeme.item, h, Item.answer, Answer.of]

/-- A scanner over bytes: where the text of its latest answer begins, the byte to read next, and the
line, in 32 bits. -/
structure ByteScanner where
  bytes : List UInt8
  start : Nat := 0
  off : Nat := 0
  line : UInt32 := 1
  deriving DecidableEq, Repr

namespace ByteScanner

/-- A scanner at the beginning of a text. -/
def new (source : String) : ByteScanner := { bytes := encode source.toList }

/-- The bytes from the offset on. -/
def ahead (s : ByteScanner) : List UInt8 := s.bytes.drop s.off

/-- The next byte and the one after it, as characters. -/
def peek (s : ByteScanner) : Option Char := s.ahead.head?.map Char.ofUInt8

def peek2 (s : ByteScanner) : Option Char := s.ahead.tail.head?.map Char.ofUInt8

/-- One byte further. -/
def skip (s : ByteScanner) : ByteScanner := { s with off := s.off + 1 }

/-- One byte further, on the next line. -/
def feed (s : ByteScanner) : ByteScanner := { s with off := s.off + 1, line := s.line + 1 }

/-- Past the bytes of a class. -/
def skipWhile (p : UInt8 → Bool) (s : ByteScanner) : ByteScanner :=
  { s with off := s.off + (s.ahead.takeWhile p).length }

/-- Past the bytes that stand for characters of a class. -/
def skipChars (p : Char → Bool) (s : ByteScanner) : ByteScanner :=
  s.skipWhile fun b => p (Char.ofUInt8 b)

theorem ahead_skip (s : ByteScanner) : s.skip.ahead = s.ahead.tail := by
  rw [ahead, ahead, List.tail_drop]
  rfl

theorem ahead_feed (s : ByteScanner) : s.feed.ahead = s.ahead.tail := s.ahead_skip

theorem ahead_skipWhile (p : UInt8 → Bool) (s : ByteScanner) :
    (s.skipWhile p).ahead = s.ahead.dropWhile p := by
  have happend := List.takeWhile_append_dropWhile (p := p) (l := s.ahead)
  have hdrop : (s.skipWhile p).ahead = s.ahead.drop (s.ahead.takeWhile p).length := by
    rw [ahead, ahead, List.drop_drop]
    rfl
  rw [hdrop]
  conv => lhs; arg 2; rw [← happend]
  exact List.drop_left

theorem ahead_skipWhile_length_lt {p : UInt8 → Bool} {s : ByteScanner} {b : UInt8}
    {rest : List UInt8} (h : s.ahead = b :: rest) (hb : p b = true) :
    (s.skipWhile p).ahead.length < s.ahead.length := by
  rw [ahead_skipWhile, h, List.dropWhile_cons_of_pos hb]
  exact Nat.lt_succ_of_le (List.dropWhile_sublist p).length_le

/-- Past blanks and comments. A comment is passed up to the line feed after it. -/
def skipBlank (s : ByteScanner) : ByteScanner :=
  match _h : s.ahead with
  | [] => s
  | b :: _ =>
    let c := Char.ofUInt8 b
    if c = ' ' ∨ c = '\r' ∨ c = '\t' then s.skip.skipBlank
    else if c = '\n' then s.feed.skipBlank
    else if c = '/' ∧ s.peek2 = some '/' then
      (s.skipChars (· ≠ '\n')).skipBlank
    else s
termination_by s.ahead.length
decreasing_by
  · rw [ahead_skip, _h]
    exact Nat.lt_succ_self _
  · rw [ahead_feed, _h]
    exact Nat.lt_succ_self _
  · rename_i hfeed _
    exact ahead_skipWhile_length_lt _h (decide_eq_true hfeed)

/-- The bytes of the text that ends at the offset. -/
def text (s : ByteScanner) : List UInt8 := (s.bytes.drop s.start).take (s.off - s.start)

/-- The token that ends at the offset. -/
def make (s : ByteScanner) (kind : TokenKind) : Answer × ByteScanner :=
  (.token kind s.text s.line, s)

/-- A string after its quote. -/
def string (s : ByteScanner) : Answer × ByteScanner :=
  match _h : s.ahead with
  | [] => (.error .unterminatedString s.line, s)
  | b :: _ =>
    if Char.ofUInt8 b = '"' then s.skip.make .string
    else if Char.ofUInt8 b = '\n' then s.feed.string
    else s.skip.string
termination_by s.ahead.length
decreasing_by
  · rw [ahead_feed, _h]
    exact Nat.lt_succ_self _
  · rw [ahead_skip, _h]
    exact Nat.lt_succ_self _

/-- The fraction that may come after the digits of a number. -/
def fraction (s : ByteScanner) : ByteScanner :=
  if s.peek = some '.' ∧ s.peek2.any Char.isDigit then s.skip.skipChars Char.isDigit else s

/-- A number after its first digit. -/
def number (s : ByteScanner) : Answer × ByteScanner :=
  (s.skipChars Char.isDigit).fraction.make .number

/-- A name or a keyword after its first letter. -/
def word (s : ByteScanner) : Answer × ByteScanner :=
  let s := s.skipChars Lexeme.isNamePart
  s.make (match Keyword.ofText? (s.text.map Char.ofUInt8) with
    | some k => .keyword k
    | none => .identifier)

/-- A character that starts no token, after its first byte. -/
def refuse (s : ByteScanner) : Answer × ByteScanner :=
  let s := s.skipWhile isTail
  (.error .unexpectedCharacter s.line, s)

/-- The answer that begins with the byte before the offset, which is `c` as a character. -/
def read (c : Char) (s : ByteScanner) : Answer × ByteScanner :=
  if Lexeme.isNameStart c then s.word
  else if c.isDigit then s.number
  else if c = '"' then s.string
  else match Lexeme.single? c, Lexeme.paired? c with
    | some kind, _ => s.make kind
    | none, some (alone, joined) =>
      if s.peek = some '=' then s.skip.make joined else s.make alone
    | none, none => s.refuse

/-- The text of the next answer begins at the offset. -/
def mark (s : ByteScanner) : ByteScanner := { s with start := s.off }

/-- The next answer and the scanner after it. -/
def next (s : ByteScanner) : Answer × ByteScanner :=
  let s := s.skipBlank.mark
  match s.ahead with
  | [] => (.endOfText s.line, s)
  | b :: _ => s.skip.read (Char.ofUInt8 b)

/-! ### Places between characters -/

/-- The scanner stands between two characters of a text. -/
structure At (s : ByteScanner) (before after : List Char) : Prop where
  bytes : s.bytes = encode (before ++ after)
  off : s.off = size before

section Places

variable {s : ByteScanner} {before after : List Char}

theorem At.ahead_eq (h : s.At before after) : s.ahead = encode after := by
  rw [ahead, h.bytes, h.off, drop_size]

theorem At.peek_eq (h : s.At before after) : s.peek = (encode after).head?.map Char.ofUInt8 := by
  rw [peek, h.ahead_eq]

theorem At.peek2_eq {c : Char} (h : s.At before (c :: after)) (hc : c.toNat < 0x80) :
    s.peek2 = (encode after).head?.map Char.ofUInt8 := by
  rw [peek2, h.ahead_eq, encode_ascii hc, List.tail_cons]

theorem At.skip {c : Char} (h : s.At before (c :: after)) (hc : c.toNat < 0x80) :
    s.skip.At (before ++ [c]) after where
  bytes := by
    rw [List.append_assoc]
    exact h.bytes
  off := by
    rw [size_append, size_ascii hc, ← h.off]
    rfl

theorem At.feed (h : s.At before ('\n' :: after)) : s.feed.At (before ++ ['\n']) after :=
  ⟨(h.skip (by decide)).bytes, (h.skip (by decide)).off⟩

theorem At.skipChars {p : Char → Bool} (h : s.At before after) (hp : Blind p) :
    (s.skipChars p).At (before ++ after.takeWhile p) (after.dropWhile p) where
  bytes := by
    rw [List.append_assoc, List.takeWhile_append_dropWhile]
    exact h.bytes
  off := by
    have hoff : (s.skipChars p).off =
        s.off + (s.ahead.takeWhile fun b => p (Char.ofUInt8 b)).length := rfl
    rw [hoff, h.ahead_eq, takeWhile_encode hp, h.off, size_append]
    rfl

/-- The text that has been read since the start. -/
theorem At.text_eq {text : List Char} (h : s.At (before ++ text) after)
    (hstart : s.start = size before) : s.text = encode text := by
  rw [ByteScanner.text, h.bytes, h.off, hstart, List.append_assoc, drop_size, size_append,
    Nat.add_sub_cancel_left, take_size]

end Places

/-! ### Blanks and comments -/

/-- A line further, and then more of them. -/
theorem line_succ (line : UInt32) (n : Nat) :
    line + 1 + UInt32.ofNat n = line + UInt32.ofNat (n + 1) := by
  rw [UInt32.ofNat_add, UInt32.add_comm (UInt32.ofNat n), ← UInt32.add_assoc]
  rfl

section Blanks

variable {s : ByteScanner} {before after : List Char}

theorem skipBlank_nil (h : s.At before []) : s.skipBlank = s := by
  unfold skipBlank
  split
  · rfl
  · rename_i heq
    rw [h.ahead_eq] at heq
    cases heq

/-- What the scanner does at a character is decided by that character. -/
theorem skipBlank_cons {c : Char} (h : s.At before (c :: after)) :
    s.skipBlank =
      if c = ' ' ∨ c = '\r' ∨ c = '\t' then s.skip.skipBlank
      else if c = '\n' then s.feed.skipBlank
      else if c = '/' ∧ after.head? = some '/' then (s.skipChars (· ≠ '\n')).skipBlank
      else s := by
  have hahead := h.ahead_eq
  rw [skipBlank]
  split
  · rename_i heq
    rw [hahead, encode_cons] at heq
    simp at heq
  · rename_i b rest heq
    rw [heq] at hahead
    have head : ∀ {d : Char}, d.toNat < 0x80 → (Char.ofUInt8 b = d ↔ c = d) :=
      fun hd => ofUInt8_head hahead.symm hd
    have hcomment : (Char.ofUInt8 b = '/' ∧ s.peek2 = some '/') ↔
        (c = '/' ∧ after.head? = some '/') := by
      rw [head (by decide)]
      refine and_congr_right fun hc => ?_
      subst hc
      rw [h.peek2_eq (by decide), head?_encode (by decide)]
    simp only [head (d := ' ') (by decide), head (d := '\r') (by decide),
      head (d := '\t') (by decide), head (d := '\n') (by decide), hcomment]

theorem skipBlank_of_settled (h : s.At before after) (hafter : Settled after) :
    s.skipBlank = s := by
  cases after with
  | nil => exact skipBlank_nil h
  | cons c after =>
    obtain ⟨hspace, hcomment⟩ := hafter c after rfl
    simp only [IsSpace, not_or] at hspace
    rw [skipBlank_cons h, if_neg (by simp [hspace]), if_neg hspace.2.2.2, if_neg hcomment]

/-- **Blanks and comments are passed over** character by character, and their line feeds are
counted. -/
theorem At.skipBlank {skipped : List Char} (hskip : Skippable after skipped)
    (hafter : Settled after) (h : s.At before (skipped ++ after)) :
    s.skipBlank.At (before ++ skipped) after ∧
      s.skipBlank.line = s.line + UInt32.ofNat (skipped.count '\n') := by
  induction hskip generalizing s before with
  | nil =>
    rw [skipBlank_of_settled h hafter, List.append_nil]
    exact ⟨h, by simp⟩
  | @space c skipped hc _ ih =>
    by_cases hfeed : c = '\n'
    · subst hfeed
      obtain ⟨hat, hline⟩ := ih h.feed
      rw [skipBlank_cons h, if_neg (by decide), if_pos rfl, hline]
      rw [List.append_assoc] at hat
      refine ⟨hat, ?_⟩
      rw [List.count_cons_self, ← line_succ]
      rfl
    · have hblank : c = ' ' ∨ c = '\r' ∨ c = '\t' := by
        rcases hc with hc | hc | hc | hc
        · exact Or.inl hc
        · exact Or.inr (Or.inr hc)
        · exact Or.inr (Or.inl hc)
        · exact absurd hc hfeed
      have hascii : c.toNat < 0x80 := by
        rcases hblank with rfl | rfl | rfl <;> decide
      obtain ⟨hat, hline⟩ := ih (h.skip hascii)
      rw [skipBlank_cons h, if_pos hblank, hline, List.count_cons_of_ne (by exact hfeed)]
      rw [List.append_assoc] at hat
      exact ⟨hat, rfl⟩
  | @comment body skipped hbody hend _ ih =>
    have hslash : '\n' ∉ '/' :: '/' :: body := by simp [hbody]
    have htext : '/' :: '/' :: (body ++ skipped) ++ after =
        '/' :: '/' :: body ++ (skipped ++ after) := by simp
    rw [htext] at h
    have hat := h.skipChars (blind_not_eq (d := '\n') (by decide))
    rw [takeWhile_comment hslash hend, dropWhile_comment hslash hend] at hat
    obtain ⟨hat, hline⟩ := ih hat
    have hcount : List.count '\n' ('/' :: '/' :: (body ++ skipped)) = skipped.count '\n' := by
      simp [List.count_eq_zero.2 hbody]
    rw [skipBlank_cons h, if_neg (by decide), if_neg (by decide), if_pos ⟨rfl, rfl⟩, hline, hcount]
    rw [List.append_assoc] at hat
    exact ⟨hat, rfl⟩

end Blanks

/-! ### Lexemes -/

/-- A reader that starts after `before` answers with a lexeme and stops behind it. -/
structure Reads (s : ByteScanner) (before : List Char) (lexeme : Lexeme)
    (result : Answer × ByteScanner) : Prop where
  answer : result.1 = .of lexeme.shape (encode lexeme.text) result.2.line
  place : result.2.At (before ++ lexeme.text) lexeme.rest
  line : result.2.line = s.line + UInt32.ofNat (lexeme.text.count '\n')
  start : result.2.start = s.start

section Lexemes

variable {s : ByteScanner} {before after : List Char}

/-- A token that has no line feed in it. -/
theorem At.make (kind : TokenKind) {text : List Char} (h : s.At (before ++ text) after)
    (hstart : s.start = size before) (hfeed : '\n' ∉ text) :
    s.Reads before ⟨.ok kind, text, after⟩ (s.make kind) where
  answer := by rw [ByteScanner.make, h.text_eq hstart]; rfl
  place := h
  line := by rw [List.count_eq_zero.2 hfeed]; simp [ByteScanner.make]
  start := rfl

theorem isNamePart_ascii {c : Char} (h : Lexeme.isNamePart c = true) : c.toNat < 0x80 := by
  simp only [Lexeme.isNamePart, Lexeme.isNameStart, Bool.or_eq_true, beq_iff_eq] at h
  rcases h with (h | rfl) | h
  · exact ascii_of_isAlpha h
  · decide
  · exact ascii_of_isDigit h

theorem At.word {c : Char} (hc : Lexeme.isNameStart c = true) (h : s.At (before ++ [c]) after)
    (hstart : s.start = size before) :
    s.Reads before (Lexeme.word c after) s.word := by
  have hpart : ∀ d ∈ c :: after.takeWhile Lexeme.isNamePart, Lexeme.isNamePart d = true := by
    rintro d (_ | ⟨_, hd⟩)
    · exact Bool.or_eq_true_iff.2 (Or.inl hc)
    · exact List.all_eq_true.1 List.all_takeWhile d hd
  have hfeed : '\n' ∉ c :: after.takeWhile Lexeme.isNamePart := fun hmem =>
    absurd (hpart _ hmem) (by decide)
  have hend := h.skipChars (blind_of_ascii fun d => isNamePart_ascii)
  rw [List.append_assoc, List.singleton_append] at hend
  have htext : (s.skipChars Lexeme.isNamePart).text.map Char.ofUInt8 =
      c :: after.takeWhile Lexeme.isNamePart := by
    rw [hend.text_eq hstart, map_encode fun d hd => isNamePart_ascii (hpart d hd)]
  unfold ByteScanner.word
  simp only [htext]
  exact { hend.make _ hstart hfeed with }

/-- There is a fraction where a digit follows the point. -/
theorem fraction_eq (s : List Char) :
    Lexeme.fraction s =
      if s.head? = some '.' ∧ s.tail.head?.any Char.isDigit then
        ('.' :: s.tail.takeWhile Char.isDigit, s.tail.dropWhile Char.isDigit)
      else ([], s) := by
  unfold Lexeme.fraction
  split
  · rename_i rest
    cases rest with
    | nil => rfl
    | cons d rest => by_cases hd : d.isDigit = true <;> simp [hd]
  · rename_i hpoint
    have hnot : ¬ s.head? = some '.' := fun h => by
      obtain ⟨rest, rfl⟩ := List.head?_eq_some_iff.1 h
      exact hpoint rest rfl
    rw [if_neg fun h => hnot h.1]

theorem At.fraction (h : s.At before after) :
    s.fraction.At (before ++ (Lexeme.fraction after).1) (Lexeme.fraction after).2 := by
  have hpeek : s.peek = some '.' ↔ after.head? = some '.' := by
    rw [h.peek_eq, head?_encode (by decide)]
  rw [ByteScanner.fraction, fraction_eq]
  by_cases hpoint : after.head? = some '.'
  · obtain ⟨rest, rfl⟩ := List.head?_eq_some_iff.1 hpoint
    have hdigit : s.peek2.any Char.isDigit = rest.head?.any Char.isDigit := by
      rw [h.peek2_eq (by decide), any_head?_encode blind_isDigit]
    simp only [hpeek, hdigit, List.head?_cons, List.tail_cons, true_and]
    split
    · have hat := (h.skip (by decide)).skipChars blind_isDigit
      rwa [List.append_assoc] at hat
    · rwa [List.append_nil]
  · rw [if_neg fun hp => hpoint (hpeek.1 hp.1), if_neg fun hp => hpoint hp.1, List.append_nil]
    exact h

theorem fraction_start (s : ByteScanner) : s.fraction.start = s.start := by
  unfold ByteScanner.fraction
  split <;> rfl

theorem fraction_line (s : ByteScanner) : s.fraction.line = s.line := by
  unfold ByteScanner.fraction
  split <;> rfl

theorem not_feed_mem_number {c : Char} (hc : c.isDigit = true) (s : List Char) :
    '\n' ∉ (Lexeme.number c s).text := by
  have hdigits : ∀ t : List Char, '\n' ∉ t.takeWhile Char.isDigit := fun t hmem =>
    absurd (List.all_eq_true.1 List.all_takeWhile _ hmem) (by decide)
  have hfraction : ∀ t, '\n' ∉ (Lexeme.fraction t).1 := fun t => by
    rw [fraction_eq]
    split
    · simp [hdigits]
    · exact List.not_mem_nil
  have hne : '\n' ≠ c := by
    rintro rfl
    cases hc
  simp [Lexeme.number, hdigits, hfraction, hne]

theorem At.number {c : Char} (hc : c.isDigit = true) (h : s.At (before ++ [c]) after)
    (hstart : s.start = size before) :
    s.Reads before (Lexeme.number c after) s.number := by
  have hend := (h.skipChars blind_isDigit).fraction
  simp only [List.append_assoc, List.singleton_append] at hend
  have hmake := hend.make .number (by rw [fraction_start]; exact hstart)
    (not_feed_mem_number hc after)
  exact { hmake with
    line := hmake.line.trans (by rw [fraction_line]; rfl)
    start := hmake.start.trans (by rw [fraction_start]; rfl) }

/-- A string goes on over every byte that is not a quote. -/
theorem string_skip {body rest : List UInt8} (hbody : ∀ b ∈ body, Char.ofUInt8 b ≠ '"')
    (h : s.ahead = body ++ rest) :
    s.string = ByteScanner.string { s with
      off := s.off + body.length
      line := s.line + UInt32.ofNat (body.countP fun b => Char.ofUInt8 b = '\n') } := by
  induction body generalizing s with
  | nil => simp
  | cons b body ih =>
    obtain ⟨hb, hbody⟩ := List.forall_mem_cons.1 hbody
    rw [ByteScanner.string]
    split
    · rename_i hnil
      rw [h] at hnil
      cases hnil
    · rename_i first tail hcons
      rw [h] at hcons
      cases hcons
      rw [if_neg hb]
      split
      · rename_i hfeed
        rw [ih hbody (by rw [ahead_feed, h]; rfl), List.countP_cons_of_pos (by simpa using hfeed),
          List.length_cons, Nat.add_comm body.length, ← Nat.add_assoc, ← line_succ]
        rfl
      · rename_i hfeed
        rw [ih hbody (by rw [ahead_skip, h]; rfl), List.countP_cons_of_neg (by simpa using hfeed),
          List.length_cons, Nat.add_comm body.length, ← Nat.add_assoc]
        rfl

theorem string_nil (h : s.ahead = []) : s.string = (.error .unterminatedString s.line, s) := by
  rw [ByteScanner.string]
  split
  · rfl
  · rename_i hcons
    rw [h] at hcons
    cases hcons

theorem string_quote (h : s.At before ('"' :: after)) : s.string = s.skip.make .string := by
  have hahead := h.ahead_eq
  rw [ByteScanner.string]
  split
  · rename_i hnil
    rw [hahead, encode_ascii (by decide)] at hnil
    cases hnil
  · rename_i b bytes hcons
    rw [hcons] at hahead
    rw [if_pos ((ofUInt8_head hahead.symm (by decide)).2 rfl)]

theorem At.string (h : s.At (before ++ ['"']) after) (hstart : s.start = size before) :
    s.Reads before (Lexeme.string '"' after) s.string := by
  have hquote : Blind (· ≠ '"') := blind_not_eq (by decide)
  have hbody : ∀ b ∈ encode (after.takeWhile (· ≠ '"')), Char.ofUInt8 b ≠ '"' := by
    rw [← takeWhile_encode hquote]
    exact fun b hb => of_decide_eq_true (List.all_eq_true.1 List.all_takeWhile b hb)
  have hsplit := List.takeWhile_append_dropWhile (p := (· ≠ '"')) (l := after)
  have hstop := List.head?_dropWhile_not (fun c => decide (c ≠ '"')) after
  simp only [Lexeme.string]
  generalize after.takeWhile (· ≠ '"') = body at hbody hsplit ⊢
  generalize after.dropWhile (· ≠ '"') = rest at hsplit hstop ⊢
  subst hsplit
  have hcount : ('"' :: body).count '\n' = body.count '\n' := List.count_cons_of_ne (by decide)
  have hskip := string_skip hbody (by rw [h.ahead_eq, encode_append])
  rw [count_encode (by decide), ← hcount] at hskip
  rw [hskip]
  -- Behind the body stands the closing quote or nothing.
  generalize ht : ({ s with
    off := s.off + (encode body).length
    line := s.line + UInt32.ofNat (('"' :: body).count '\n') } : ByteScanner) = t
  have hline : t.line = s.line + UInt32.ofNat (('"' :: body).count '\n') := by rw [← ht]
  have hstart' : t.start = s.start := by rw [← ht]
  have hplace : t.At (before ++ '"' :: body) rest := by
    rw [← ht]
    constructor
    · rw [h.bytes, List.append_assoc, List.append_assoc]
      rfl
    · have hsize : size (before ++ '"' :: body) = size (before ++ ['"']) + size body := by
        rw [← size_append, List.append_assoc, List.singleton_append]
      rw [hsize, ← h.off]
      rfl
  cases rest with
  | nil =>
    rw [string_nil hplace.ahead_eq]
    exact ⟨rfl, hplace, hline, hstart'⟩
  | cons q rest =>
    obtain rfl : q = '"' := by simpa using hstop
    have hend := hplace.skip (by decide)
    rw [List.append_assoc] at hend
    rw [string_quote hplace]
    refine ⟨?_, hend, ?_, hstart'⟩
    · rw [ByteScanner.make, hend.text_eq (hstart'.trans hstart)]
      rfl
    · rw [List.count_append, List.count_singleton]
      exact hline

/-- The tail bytes of a refused character go with it. -/
theorem At.refuse {c : Char} (hc : c ≠ '\n') (h : s.At before (c :: after)) :
    s.skip.Reads before ⟨.error .unexpectedCharacter, [c], after⟩ s.skip.refuse := by
  obtain ⟨lead, tail, hoctets, htail⟩ := isTail_encode c after
  have hahead : s.skip.ahead = tail ++ encode after := by
    rw [ahead_skip, h.ahead_eq, hoctets, List.tail_cons]
  have hsize : size [c] = 1 + tail.length := by
    have hcut : encode [c] ++ encode after = (lead :: tail) ++ encode after := by
      rw [← encode_append, List.singleton_append, hoctets, List.cons_append]
    rw [size, List.append_cancel_right hcut, List.length_cons, Nat.add_comm]
  have hoff : (s.skip.skipWhile isTail).off = size (before ++ [c]) := by
    rw [size_append, hsize, ← h.off, ← Nat.add_assoc, skipWhile, hahead, htail]
    rfl
  refine ⟨rfl, ⟨?_, hoff⟩, ?_, rfl⟩
  · rw [List.append_assoc]
    exact h.bytes
  · have hcount : [c].count '\n' = 0 := List.count_eq_zero.2 (by simpa using Ne.symm hc)
    rw [hcount]
    exact (UInt32.add_zero _).symm

/-- No token begins with a character beyond ASCII. -/
structure StartsNothing (c : Char) : Prop where
  nameStart : Lexeme.isNameStart c = false
  digit : c.isDigit = false
  quote : c ≠ '"'
  single : Lexeme.single? c = none
  paired : Lexeme.paired? c = none

theorem startsNothing {c : Char} (hc : 0x80 ≤ c.toNat) : StartsNothing c where
  nameStart := Bool.eq_false_iff.2 fun h => by
    have := isNamePart_ascii (Bool.or_eq_true_iff.2 (Or.inl h))
    omega
  digit := Bool.eq_false_iff.2 fun h => by
    have := ascii_of_isDigit h
    omega
  quote := by
    rintro rfl
    exact absurd hc (by decide)
  single := by
    unfold Lexeme.single?
    split
    all_goals first | rfl | exact absurd hc (by decide)
  paired := by
    unfold Lexeme.paired?
    split
    all_goals first | rfl | exact absurd hc (by decide)

theorem StartsNothing.lexeme {c : Char} (hc : StartsNothing c) (after : List Char) :
    Lexeme.read c after = ⟨.error .unexpectedCharacter, [c], after⟩ := by
  simp [Lexeme.read, hc.nameStart, hc.digit, hc.quote, hc.single, hc.paired]

theorem StartsNothing.read {c : Char} (hc : StartsNothing c) (s : ByteScanner) :
    s.read c = s.refuse := by
  simp [ByteScanner.read, hc.nameStart, hc.digit, hc.quote, hc.single, hc.paired]

theorem At.withEqual {c : Char} {alone joined : TokenKind} (hc : c ≠ '\n')
    (h : s.At (before ++ [c]) after) (hstart : s.start = size before) :
    s.Reads before (Lexeme.withEqual alone joined c after)
      (if s.peek = some '=' then s.skip.make joined else s.make alone) := by
  have hpeek : s.peek = some '=' ↔ after.head? = some '=' := by
    rw [h.peek_eq, head?_encode (by decide)]
  have hfeed : '\n' ∉ [c] := by simpa using Ne.symm hc
  unfold Lexeme.withEqual
  split
  · rw [if_pos (hpeek.2 rfl)]
    have hend := h.skip (by decide)
    rw [List.append_assoc] at hend
    exact { hend.make _ hstart (by simpa using Ne.symm hc) with }
  · rename_i hnot
    have hother : ¬ after.head? = some '=' := fun heq => by
      obtain ⟨rest, rfl⟩ := List.head?_eq_some_iff.1 heq
      exact hnot rest rfl
    rw [if_neg fun heq => hother (hpeek.1 heq)]
    exact h.make _ hstart hfeed

/-- **The bytes of a text give the lexeme that its characters give.** -/
theorem At.read {c : Char} {b : UInt8} {bytes : List UInt8} (hc : c ≠ '\n')
    (h : s.At before (c :: after)) (hb : s.ahead = b :: bytes)
    (hstart : s.start = size before) :
    s.skip.Reads before (Lexeme.read c after) (s.skip.read (Char.ofUInt8 b)) := by
  rw [h.ahead_eq] at hb
  rcases Nat.lt_or_ge c.toNat 0x80 with hascii | hlong
  · have hbyte : Char.ofUInt8 b = c := (ofUInt8_head hb hascii).2 rfl
    have hnext := h.skip hascii
    have hfeed : '\n' ∉ [c] := by simpa using Ne.symm hc
    rw [hbyte, ByteScanner.read, Lexeme.read]
    split
    · rename_i hname
      exact hnext.word hname hstart
    split
    · rename_i hdigit
      exact hnext.number hdigit hstart
    split
    · rename_i hquote
      subst hquote
      exact hnext.string hstart
    cases hsingle : Lexeme.single? c with
    | some kind => exact hnext.make _ hstart hfeed
    | none =>
      cases hpaired : Lexeme.paired? c with
      | some kinds => exact hnext.withEqual hc hstart
      | none => exact h.refuse hc
  · have hnothing : StartsNothing (Char.ofUInt8 b) := startsNothing (le_ofUInt8_head hb hlong)
    rw [hnothing.read, (startsNothing hlong).lexeme]
    exact h.refuse hc

end Lexemes

/-! ### Calls -/

/-- The scanner stands where a cursor stands, behind some text and on the same line. -/
structure Follows (s : ByteScanner) (cursor : Cursor) (before : List Char) : Prop where
  place : s.At before cursor.rest
  line : s.line = UInt32.ofNat cursor.line

theorem follows_new (source : String) :
    (new source).Follows (Cursor.start source.toList) [] := ⟨⟨rfl, rfl⟩, rfl⟩

/-- **A call of the scanner is a call of the lexer**: the answers are the same, and the places after
them. -/
theorem next_of_follows {s : ByteScanner} {cursor : Cursor} {before : List Char}
    (h : s.Follows cursor before) :
    s.next.1 = cursor.next.1.answer ∧
      s.next.2.Follows cursor.next.2 (before ++ cursor.skipped ++ cursor.own) ∧
      s.next.2.start = size (before ++ cursor.skipped) := by
  have hplace := h.place
  rw [cursor.cut.whole] at hplace
  obtain ⟨hat, hline⟩ := hplace.skipBlank cursor.cut.skippable cursor.cut.settled
  have hitem : s.skipBlank.line = UInt32.ofNat cursor.itemLine := by
    rw [hline, h.line, Cursor.itemLine, UInt32.ofNat_add]
  have hmark : s.skipBlank.mark.At (before ++ cursor.skipped) cursor.ahead := ⟨hat.bytes, hat.off⟩
  rw [next]
  cases hahead : cursor.ahead with
  | nil =>
    rw [hahead] at hmark
    have hown : cursor.own = [] := by rw [Cursor.own, hahead]
    have hnil : s.skipBlank.mark.ahead = [] := hmark.ahead_eq
    simp only [hnil]
    rw [Cursor.next_of_ahead_nil hahead, hown, List.append_nil]
    exact ⟨congrArg Answer.endOfText hitem, ⟨hmark, hitem⟩, hmark.off⟩
  | cons c rest =>
    have hown : cursor.own = (Lexeme.read c rest).text := by rw [Cursor.own, hahead]
    have hfeed : c ≠ '\n' := fun heq =>
      (cursor.cut.settled c rest hahead).1 (Or.inr (Or.inr (Or.inr heq)))
    rw [hahead] at hmark
    obtain ⟨b, bytes, hbytes⟩ : ∃ b bytes, s.skipBlank.mark.ahead = b :: bytes :=
      List.exists_cons_of_ne_nil (by simp [hmark.ahead_eq, encode_cons])
    have hread := hmark.read hfeed hbytes hmark.off
    have hend : (s.skipBlank.mark.skip.read (Char.ofUInt8 b)).2.line =
        UInt32.ofNat (cursor.itemLine + (Lexeme.read c rest).text.count '\n') := by
      rw [hread.line, UInt32.ofNat_add, ← hitem]
      rfl
    simp only [hbytes]
    rw [Cursor.next_of_ahead_cons hahead, hown]
    refine ⟨?_, ⟨hread.place, hend⟩, hread.start.trans hmark.off⟩
    rw [hread.answer, hend, Lexeme.answer_item]

end ByteScanner

end ExprMachine
