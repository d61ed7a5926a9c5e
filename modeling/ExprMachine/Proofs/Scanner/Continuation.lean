import ExprMachine.Proofs.Scanner.LongestMatch

/-!
# Texts one below the other

What the lexer makes of a text does not depend on what stands in the lines below it, nor on the line
on which it begins, but that the lines of the tokens are counted from there.

* `Cursor.next_above_of_token`, `Cursor.next_above_of_endOfText` — a call on a text with more lines
  below it;
* `Token.moved`, `Cursor.next_moved` — a call on a text that begins further down;
* `Cursor.Scans` — the tokens from a place on, and how they end; `Cursor.tokens_eq_iff`;
* `Cursor.Scans.above` — the tokens of a text, and then those of the lines below it;
* `Cursor.Scans.moved` — the tokens of a text that begins further down.
-/

namespace ExprMachine

/-! ### Lines below -/

/-- Blanks and comments end where they ended, or with the line on which the text ended. -/
theorem skipBlank_append_feed (inComment : Bool) (line : Nat) (s more : List Char) :
    skipBlank inComment line (s ++ '\n' :: more) =
      if (skipBlank inComment line s).rest = [] then
        skipBlank false ((skipBlank inComment line s).line + 1) more
      else ⟨(skipBlank inComment line s).rest ++ '\n' :: more,
        (skipBlank inComment line s).line⟩ := by
  induction s generalizing inComment line with
  | nil => simp [skipBlank]
  | cons c s ih =>
    by_cases hfeed : c = '\n'
    · simp only [List.cons_append, skipBlank, hfeed, if_true, ih]
    cases inComment with
    | true => simp only [List.cons_append, skipBlank, hfeed, if_true, if_false, ih]
    | false =>
      by_cases hblank : c = ' ' ∨ c = '\t' ∨ c = '\r'
      · simp [skipBlank, hfeed, hblank, ih]
      -- a slash at the end of the text has a line feed behind it, and no other slash
      have hhead : (s ++ '\n' :: more).head? = some '/' ↔ s.head? = some '/' := by
        cases s <;> simp
      simp only [List.cons_append, skipBlank, if_neg hfeed, if_neg hblank, hhead,
        Bool.false_eq_true, if_false]
      split
      · exact ih true line
      · exact (if_neg (List.cons_ne_nil c s)).symm

namespace Cursor

/-- The place with a line feed and more behind the text. -/
def above (cursor : Cursor) (more : List Char) : Cursor :=
  ⟨cursor.rest ++ '\n' :: more, cursor.line⟩

variable {cursor : Cursor}

@[simp]
theorem above_rest (cursor : Cursor) (more : List Char) :
    (cursor.above more).rest = cursor.rest ++ '\n' :: more := rfl

@[simp]
theorem above_line (cursor : Cursor) (more : List Char) :
    (cursor.above more).line = cursor.line := rfl

theorem ahead_above (h : cursor.ahead ≠ []) (more : List Char) :
    (cursor.above more).ahead = cursor.ahead ++ '\n' :: more := by
  have hne : (skipBlank false cursor.line cursor.rest).rest ≠ [] := h
  rw [ahead, above_rest, above_line, skipBlank_append_feed, if_neg hne]
  rfl

/-- **A call that answers with a token** gives the same answer with more lines below. -/
theorem next_above_of_token {t : Token} (h : cursor.next.1 = .token t) (more : List Char) :
    (cursor.above more).next = (.token t, cursor.next.2.above more) := by
  have hline := line_add_count_next cursor
  have hline' := line_add_count_next (cursor.above more)
  cases cursor.decides with
  | unterminated _ _ hitem | unexpected _ _ _ hitem | atEnd _ hitem =>
    rw [h] at hitem
    cases hitem
  | @token kind text hlongest hitem hahead =>
    rw [h] at hitem
    cases hitem
    have hne : cursor.ahead ≠ [] := by
      rw [hahead]
      exact List.append_ne_nil_of_left_ne_nil hlongest.fits.ne_nil _
    have hlongest' : LongestMatch kind text (cursor.above more).ahead := by
      rw [ahead_above hne]
      exact hlongest.append_space (.inr (.inr (.inr rfl)))
    obtain ⟨hitem', hahead'⟩ := (cursor.above more).longestMatch_iff.1 hlongest'
    have hrest : (cursor.above more).next.2.rest = cursor.next.2.rest ++ '\n' :: more := by
      rw [ahead_above hne, hahead, List.append_assoc] at hahead'
      exact (List.append_cancel_left hahead').symm
    -- the lines are those on which the same texts end
    have hsame : (cursor.above more).next.2.line = cursor.next.2.line := by
      rw [hrest, above_rest, above_line, List.count_append, List.count_append] at hline'
      omega
    have hplace : (cursor.above more).next.2 = cursor.next.2.above more := by
      show (cursor.above more).next.2 = ⟨cursor.next.2.rest ++ '\n' :: more, cursor.next.2.line⟩
      rw [← hrest, ← hsame]
    rw [← hplace, ← hsame, ← hitem']

/-- **A call that finds nothing** goes on with the lines below. -/
theorem next_above_of_endOfText {last : Nat} (h : cursor.next.1 = .endOfText last)
    (more : List Char) : (cursor.above more).next = next ⟨more, last + 1⟩ := by
  have hahead : cursor.ahead = [] := by
    cases cursor.decides with
    | atEnd hahead _ => exact hahead
    | token _ hitem _ | unterminated _ _ hitem | unexpected _ _ _ hitem =>
      rw [h] at hitem
      cases hitem
  have hlast : (skipBlank false cursor.line cursor.rest).line = last := by
    have hblank := cursor.cut.blank
    rw [next_of_ahead_nil hahead] at h
    cases h
    rw [hblank]
    rfl
  have hnil : (skipBlank false cursor.line cursor.rest).rest = [] := hahead
  have hskip : skipBlank false cursor.line (cursor.rest ++ '\n' :: more) =
      skipBlank false (last + 1) more := by
    rw [skipBlank_append_feed, if_pos hnil, hlast]
  rw [next, next, above_rest, above_line, hskip]

end Cursor

/-! ### Further down -/

/-- The token some lines further down. -/
def Token.moved (k : Nat) (t : Token) : Token := { t with line := t.line + k }

/-- The item some lines further down. -/
def Item.moved (k : Nat) : Item → Item
  | token t => token (t.moved k)
  | error e line => error e (line + k)
  | endOfText line => endOfText (line + k)

theorem skipBlank_moved (k : Nat) (inComment : Bool) (line : Nat) (s : List Char) :
    skipBlank inComment (line + k) s =
      ⟨(skipBlank inComment line s).rest, (skipBlank inComment line s).line + k⟩ := by
  induction s generalizing inComment line with
  | nil => rfl
  | cons c s ih =>
    have hfeed := ih false (line + 1)
    rw [Nat.add_right_comm] at hfeed
    simp only [skipBlank]
    split
    · exact hfeed
    split
    · exact ih true line
    split
    · exact ih false line
    split
    · exact ih true line
    · rfl

namespace Cursor

/-- The place some lines further down. -/
def moved (k : Nat) (cursor : Cursor) : Cursor := ⟨cursor.rest, cursor.line + k⟩

/-- The end some lines further down. -/
def Ending.moved (k : Nat) : Ending → Ending
  | endOfText line => endOfText (line + k)
  | error e line => error e (line + k)

/-- **The answers of calls** are as many lines further down as the text. -/
theorem next_moved (k : Nat) (cursor : Cursor) :
    (cursor.moved k).next = (cursor.next.1.moved k, cursor.next.2.moved k) := by
  have hskip := skipBlank_moved k false cursor.line cursor.rest
  rw [next, next, moved, hskip]
  obtain ⟨rest, line⟩ := skipBlank false cursor.line cursor.rest
  cases rest with
  | nil => rfl
  | cons c s =>
    simp only [Nat.add_right_comm line k]
    cases (Lexeme.read c s).shape <;> rfl

/-! ### All tokens -/

/-- The tokens from a place on up to the end of the text or the first error. -/
inductive Scans : Cursor → List Token → Ending → Prop
  | endOfText {cursor : Cursor} {line : Nat} :
      cursor.next.1 = .endOfText line → Scans cursor [] (.endOfText line)
  | error {cursor : Cursor} {e : LexicalError} {line : Nat} :
      cursor.next.1 = .error e line → Scans cursor [] (.error e line)
  | token {cursor : Cursor} {t : Token} {ts : List Token} {ending : Ending} :
      cursor.next.1 = .token t → Scans cursor.next.2 ts ending → Scans cursor (t :: ts) ending

theorem scans_tokensAfter (read : List Token) (cursor : Cursor) :
    ∃ ts ending, cursor.tokensAfter read = (read.reverse ++ ts, ending) ∧
      Scans cursor ts ending := by
  induction read, cursor using tokensAfter.induct with
  | case1 read cursor line after hnext =>
    refine ⟨[], .endOfText line, ?_, .endOfText (congrArg Prod.fst hnext)⟩
    rw [tokensAfter, hnext, List.append_nil]
  | case2 read cursor e line after hnext =>
    refine ⟨[], .error e line, ?_, .error (congrArg Prod.fst hnext)⟩
    rw [tokensAfter, hnext, List.append_nil]
  | case3 read cursor t after hnext ih =>
    obtain ⟨ts, ending, htokens, hscans⟩ := ih
    refine ⟨t :: ts, ending, ?_, .token (congrArg Prod.fst hnext) ?_⟩
    · rw [tokensAfter, hnext]
      simp only [htokens, List.reverse_cons, List.append_assoc, List.singleton_append]
    · rwa [hnext]

theorem Scans.unique {cursor : Cursor} {ts ts' : List Token} {ending ending' : Ending}
    (h : Scans cursor ts ending) (h' : Scans cursor ts' ending') :
    ts = ts' ∧ ending = ending' := by
  induction h generalizing ts' with
  | endOfText hitem =>
    cases h' with
    | endOfText hitem' =>
      rw [hitem] at hitem'
      cases hitem'
      exact ⟨rfl, rfl⟩
    | error hitem' | token hitem' _ =>
      rw [hitem] at hitem'
      cases hitem'
  | error hitem =>
    cases h' with
    | error hitem' =>
      rw [hitem] at hitem'
      cases hitem'
      exact ⟨rfl, rfl⟩
    | endOfText hitem' | token hitem' _ =>
      rw [hitem] at hitem'
      cases hitem'
  | token hitem _ ih =>
    cases h' with
    | endOfText hitem' | error hitem' =>
      rw [hitem] at hitem'
      cases hitem'
    | token hitem' hscans' =>
      rw [hitem] at hitem'
      cases hitem'
      obtain ⟨rfl, rfl⟩ := ih hscans'
      exact ⟨rfl, rfl⟩

/-- The tokens of a text are those that are scanned one after the other. -/
theorem tokens_eq_iff {cursor : Cursor} {ts : List Token} {ending : Ending} :
    cursor.tokens = (ts, ending) ↔ Scans cursor ts ending := by
  obtain ⟨ts', ending', htokens, hscans⟩ := scans_tokensAfter [] cursor
  rw [tokens, htokens, List.reverse_nil, List.nil_append, Prod.mk.injEq]
  constructor
  · rintro ⟨rfl, rfl⟩
    exact hscans
  · exact hscans.unique

/-- What is scanned depends on the next call alone. -/
theorem Scans.of_next_eq {cursor cursor' : Cursor} {ts : List Token} {ending : Ending}
    (h : Scans cursor ts ending) (heq : cursor'.next = cursor.next) : Scans cursor' ts ending := by
  cases h with
  | endOfText hitem => exact .endOfText (heq ▸ hitem)
  | error hitem => exact .error (heq ▸ hitem)
  | token hitem hscans => exact .token (heq ▸ hitem) (heq ▸ hscans)

/-- **The tokens of a text, and then those of the lines below it.** A comment that ends the text
ends with its line, and no token goes on. -/
theorem Scans.above {cursor : Cursor} {more : List Char} {ts us : List Token} {last : Nat}
    {ending : Ending} (h : Scans cursor ts (.endOfText last))
    (hmore : Scans ⟨more, last + 1⟩ us ending) : Scans (cursor.above more) (ts ++ us) ending := by
  generalize hend : Ending.endOfText last = stop at h
  induction h with
  | endOfText hitem =>
    cases hend
    exact hmore.of_next_eq (next_above_of_endOfText hitem more)
  | error hitem => cases hend
  | token hitem _ ih =>
    have hnext := next_above_of_token hitem more
    refine .token (congrArg Prod.fst hnext) ?_
    rw [hnext]
    exact ih hend

/-- **The tokens of a text that begins further down.** -/
theorem Scans.moved {cursor : Cursor} {ts : List Token} {ending : Ending}
    (h : Scans cursor ts ending) (k : Nat) :
    Scans (cursor.moved k) (ts.map (Token.moved k)) (ending.moved k) := by
  induction h with
  | endOfText hitem => exact .endOfText (by rw [next_moved, hitem]; rfl)
  | error hitem => exact .error (by rw [next_moved, hitem]; rfl)
  | token hitem _ ih =>
    refine .token (by rw [next_moved, hitem]; rfl) ?_
    rwa [next_moved]

end Cursor

end ExprMachine
