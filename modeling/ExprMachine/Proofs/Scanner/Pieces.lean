import ExprMachine.Lexer

/-!
# Pieces of a text

One call of the lexer goes over two pieces of the text ahead: blanks and comments, and the text of
its answer. Together they are everything up to the place where the next call begins.

* `Skippable` — blanks and comments in front of a text;
* `Settled` — a text that begins with neither;
* `skipBlank_eq` — passing over the blanks and comments in front of a settled text;
* `Lexeme.Shaped` — the text of a lexeme, by what it is;
* `Cursor.Covers` — the two pieces of a call, and `Cursor.exists_covers`, that every call has them.

The line of an answer is the one on which its text ends, because the pieces hold every line feed
that the call goes over.
-/

namespace ExprMachine

/-! ### Blanks and comments -/

/-- A character between tokens. -/
def IsSpace (c : Char) : Prop := c = ' ' ∨ c = '\t' ∨ c = '\r' ∨ c = '\n'

/-- Blanks and comments in front of `after`. A comment goes up to the end of its line, or to the end
of the text. -/
inductive Skippable (after : List Char) : List Char → Prop where
  | nil : Skippable after []
  | space {c : Char} {s : List Char} : IsSpace c → Skippable after s → Skippable after (c :: s)
  | comment {body s : List Char} : '\n' ∉ body → (∀ c ∈ (s ++ after).head?, c = '\n') →
      Skippable after s → Skippable after ('/' :: '/' :: (body ++ s))

/-- A text that begins with neither a blank nor a comment. -/
def Settled (s : List Char) : Prop :=
  ∀ c rest, s = c :: rest → ¬ IsSpace c ∧ ¬ (c = '/' ∧ rest.head? = some '/')

theorem settled_nil : Settled [] := nofun

/-- A comment is left where its line ends. -/
theorem skipBlank_true (line : Nat) (s : List Char) :
    skipBlank true line s = skipBlank false line (s.dropWhile (· ≠ '\n')) := by
  induction s with
  | nil => rfl
  | cons c s ih =>
    by_cases hc : c = '\n'
    · simp [skipBlank, hc]
    · simpa [skipBlank, hc] using ih

section Comments

variable {body rest : List Char} (hbody : '\n' ∉ body) (hrest : ∀ c ∈ rest.head?, c = '\n')

include hbody hrest

/-- A comment is everything up to the end of its line. -/
theorem takeWhile_comment : (body ++ rest).takeWhile (· ≠ '\n') = body := by
  have hnot : ∀ c ∈ body, (decide (c ≠ '\n')) = true := fun c hc =>
    decide_eq_true fun heq => hbody (heq ▸ hc)
  have hstop : rest.takeWhile (· ≠ '\n') = [] := by
    cases rest with
    | nil => rfl
    | cons c rest => simp [hrest c rfl]
  rw [List.takeWhile_append_of_pos hnot, hstop, List.append_nil]

theorem dropWhile_comment : (body ++ rest).dropWhile (· ≠ '\n') = rest := by
  have hsplit := List.takeWhile_append_dropWhile (p := (· ≠ '\n')) (l := body ++ rest)
  rw [takeWhile_comment hbody hrest] at hsplit
  exact List.append_cancel_left hsplit

/-- A comment on its own line. -/
theorem skipBlank_comment (line : Nat) :
    skipBlank false line ('/' :: '/' :: (body ++ rest)) = skipBlank false line rest := by
  calc skipBlank false line ('/' :: '/' :: (body ++ rest))
      = skipBlank true line (body ++ rest) := by simp [skipBlank]
    _ = skipBlank false line rest := by rw [skipBlank_true, dropWhile_comment hbody hrest]

end Comments

theorem skipBlank_of_settled (line : Nat) {s : List Char} (h : Settled s) :
    skipBlank false line s = ⟨s, line⟩ := by
  cases s with
  | nil => rfl
  | cons c s =>
    obtain ⟨hspace, hcomment⟩ := h c s rfl
    simp only [IsSpace, not_or] at hspace
    simp [skipBlank, hspace, hcomment]

/-- **Blanks and comments are passed over**, and their line feeds are counted. -/
theorem skipBlank_eq {skipped after : List Char} (h : Skippable after skipped)
    (hafter : Settled after) (line : Nat) :
    skipBlank false line (skipped ++ after) = ⟨after, line + skipped.count '\n'⟩ := by
  induction h generalizing line with
  | nil => exact skipBlank_of_settled line hafter
  | @space c s hc _ ih =>
    by_cases hfeed : c = '\n'
    · subst hfeed
      simp only [List.cons_append, skipBlank, if_true, ih, List.count_cons_self]
      rw [Nat.add_assoc, Nat.add_comm 1]
    · have hblank : c = ' ' ∨ c = '\t' ∨ c = '\r' := by
        simpa only [IsSpace, hfeed, or_false] using hc
      simp [skipBlank, hfeed, hblank, ih]
  | @comment body s hbody hend _ ih =>
    have hcount : body.count '\n' = 0 := List.count_eq_zero.2 hbody
    rw [List.cons_append, List.cons_append, List.append_assoc, skipBlank_comment hbody hend, ih]
    simp [hcount]

theorem settled_cons {c : Char} {s : List Char} (hspace : ¬ IsSpace c)
    (hcomment : ¬ (c = '/' ∧ s.head? = some '/')) : Settled (c :: s) := by
  rintro d rest heq
  cases heq
  exact ⟨hspace, hcomment⟩

/-- The comment that a text begins with, and what comes after it. -/
theorem comment_split (s : List Char) :
    ∃ body rest, s = body ++ rest ∧ '\n' ∉ body ∧ ∀ c ∈ rest.head?, c = '\n' := by
  refine ⟨s.takeWhile (· ≠ '\n'), s.dropWhile (· ≠ '\n'), List.takeWhile_append_dropWhile.symm,
    fun hmem => ?_, fun c hc => ?_⟩
  · simpa using List.all_eq_true.1 List.all_takeWhile _ hmem
  · have hnot := List.head?_dropWhile_not (fun c => decide (c ≠ '\n')) s
    rw [Option.mem_def.1 hc] at hnot
    simpa using hnot

/-- Every text is blanks and comments in front of a settled text. -/
theorem exists_skippable (s : List Char) :
    ∃ skipped after, s = skipped ++ after ∧ Skippable after skipped ∧ Settled after := by
  -- A comment takes many characters at once, so the induction is on the length.
  induction hlen : s.length using Nat.strongRecOn generalizing s with
  | _ n ih =>
    subst hlen
    match s with
    | [] => exact ⟨[], [], rfl, .nil, settled_nil⟩
    | c :: rest =>
      by_cases hspace : IsSpace c
      · obtain ⟨skipped, after, rfl, hskip, hafter⟩ := ih rest.length (by simp) rest rfl
        exact ⟨c :: skipped, after, rfl, .space hspace hskip, hafter⟩
      by_cases hcomment : c = '/' ∧ rest.head? = some '/'
      · obtain ⟨rfl, hslash⟩ := hcomment
        obtain ⟨tail, rfl⟩ := List.head?_eq_some_iff.1 hslash
        obtain ⟨body, rest, rfl, hbody, hend⟩ := comment_split tail
        obtain ⟨skipped, after, rfl, hskip, hafter⟩ :=
          ih rest.length (by simp only [List.length_cons, List.length_append]; omega) rest rfl
        refine ⟨'/' :: '/' :: (body ++ skipped), after, ?_, .comment hbody hend hskip, hafter⟩
        simp only [List.cons_append, List.append_assoc]
      · exact ⟨[], c :: rest, rfl, .nil, settled_cons hspace hcomment⟩

/-! ### Lexemes -/

/-- The text that a lexeme of some shape has, with `after` behind it: one character if it is
unexpected, and everything from a quote on if that is the only one. -/
def HasText (own after : List Char) : Except LexicalError TokenKind → Prop
  | .ok _ => own ≠ []
  | .error .unexpectedCharacter => ∃ c, own = [c]
  | .error .unterminatedString => (∃ body, own = '"' :: body ∧ '"' ∉ body) ∧ after = []

theorem Lexeme.hasText_string (s : List Char) :
    HasText (string '"' s).text (string '"' s).rest (string '"' s).shape := by
  simp only [string]
  split
  · refine ⟨⟨_, rfl, fun hmem => ?_⟩, rfl⟩
    simpa using List.all_eq_true.1 List.all_takeWhile _ hmem
  · exact List.cons_ne_nil _ _

theorem Lexeme.hasText_read (c : Char) (s : List Char) :
    HasText (read c s).text (read c s).rest (read c s).shape := by
  unfold read
  split
  · exact List.cons_ne_nil _ _
  split
  · exact List.cons_ne_nil _ _
  split
  · rename_i hquote
    subst hquote
    exact hasText_string s
  split
  · exact List.cons_ne_nil _ _
  · unfold withEqual
    split <;> exact List.cons_ne_nil _ _
  · exact ⟨c, rfl⟩

/-- The item that a lexeme makes, its text ending on some line. -/
def Lexeme.item (lexeme : Lexeme) (line : Nat) : Item :=
  match lexeme.shape with
  | .ok kind => .token ⟨kind, lexeme.text, line⟩
  | .error e => .error e line

/-! ### Calls -/

namespace Cursor

/-- The text ahead from the place on where the next item begins. -/
def ahead (cursor : Cursor) : List Char := (skipBlank false cursor.line cursor.rest).rest

/-- The blanks and comments before the next item. -/
def skipped (cursor : Cursor) : List Char :=
  cursor.rest.take (cursor.rest.length - cursor.ahead.length)

/-- The text of the next item, which at the end is empty. -/
def own (cursor : Cursor) : List Char :=
  match cursor.ahead with
  | [] => []
  | c :: s => (Lexeme.read c s).text

/-- The text ahead is cut where the next item begins. -/
structure Cut (cursor : Cursor) : Prop where
  whole : cursor.rest = cursor.skipped ++ cursor.ahead
  skippable : Skippable cursor.ahead cursor.skipped
  settled : Settled cursor.ahead
  blank : skipBlank false cursor.line cursor.rest =
    ⟨cursor.ahead, cursor.line + cursor.skipped.count '\n'⟩

theorem cut (cursor : Cursor) : cursor.Cut := by
  obtain ⟨skipped, after, hrest, hskip, hafter⟩ := exists_skippable cursor.rest
  have hblank := skipBlank_eq hskip hafter cursor.line
  have hahead : cursor.ahead = after := by rw [ahead, hrest, hblank]
  have hskipped : cursor.skipped = skipped := by
    rw [Cursor.skipped, hahead, hrest, List.length_append, Nat.add_sub_cancel, List.take_left]
  constructor
  · rw [hskipped, hahead, hrest]
  · rwa [hskipped, hahead]
  · rwa [hahead]
  · rw [hskipped, hahead, ← hblank, ← hrest]

/-- The line on which the next item begins. -/
def itemLine (cursor : Cursor) : Nat := cursor.line + cursor.skipped.count '\n'

theorem next_of_ahead_nil {cursor : Cursor} (h : cursor.ahead = []) :
    cursor.next = (.endOfText cursor.itemLine, ⟨[], cursor.itemLine⟩) := by
  have hblank := cursor.cut.blank
  rw [h] at hblank
  rw [next, hblank]
  rfl

theorem next_of_ahead_cons {cursor : Cursor} {c : Char} {s : List Char}
    (h : cursor.ahead = c :: s) :
    cursor.next =
      ((Lexeme.read c s).item (cursor.itemLine + (Lexeme.read c s).text.count '\n'),
        ⟨(Lexeme.read c s).rest, cursor.itemLine + (Lexeme.read c s).text.count '\n'⟩) := by
  have hblank := cursor.cut.blank
  rw [h] at hblank
  rw [next, hblank]
  rfl

/-- What a call answers, with its own text cut off. -/
inductive Answers (cursor : Cursor) : Prop where
  | atEnd : cursor.own = [] → cursor.next.2.rest = [] →
      cursor.next.1 = .endOfText cursor.next.2.line → Answers cursor
  | lexeme (shape : Except LexicalError TokenKind) :
      HasText cursor.own cursor.next.2.rest shape →
      cursor.next.1 = Lexeme.item ⟨shape, cursor.own, cursor.next.2.rest⟩ cursor.next.2.line →
      Answers cursor

theorem answers (cursor : Cursor) : cursor.Answers := by
  cases h : cursor.ahead with
  | nil =>
    have hnext := next_of_ahead_nil h
    have hown : cursor.own = [] := by rw [own, h]
    exact .atEnd hown (by rw [hnext]) (by rw [hnext])
  | cons c s =>
    have hnext := next_of_ahead_cons h
    have hown : cursor.own = (Lexeme.read c s).text := by rw [own, h]
    refine .lexeme (Lexeme.read c s).shape ?_ ?_
    · rw [hown, hnext]
      exact Lexeme.hasText_read c s
    · rw [hown, hnext]

theorem ahead_eq (cursor : Cursor) : cursor.ahead = cursor.own ++ cursor.next.2.rest := by
  cases h : cursor.ahead with
  | nil => rw [own, h, next_of_ahead_nil h, List.nil_append]
  | cons c s => rw [own, h, next_of_ahead_cons h, Lexeme.text_append_rest]

/-- **A call goes over its two pieces** of the text and over nothing else. -/
theorem rest_eq (cursor : Cursor) :
    cursor.rest = cursor.skipped ++ cursor.own ++ cursor.next.2.rest := by
  rw [List.append_assoc, ← ahead_eq, ← cursor.cut.whole]

/-- **A call counts the line feeds** of its two pieces. -/
theorem line_next (cursor : Cursor) :
    cursor.next.2.line = cursor.line + (cursor.skipped ++ cursor.own).count '\n' := by
  rw [List.count_append, ← Nat.add_assoc]
  cases h : cursor.ahead with
  | nil => rw [own, h, next_of_ahead_nil h, List.count_nil, Nat.add_zero, itemLine]
  | cons c s => rw [own, h, next_of_ahead_cons h, itemLine]

end Cursor

end ExprMachine
