import Mathlib.Algebra.GroupWithZero.Nat
import ExprMachine.Proofs.Scanner.Octets

/-!
# A whole scan

What call after call goes over, from the beginning of a text to its end and after that.

* `Cursor.after`, `Cursor.passed` — the place after a number of calls, and the text behind it;
* `Cursor.exists_end` — the calls that answer with the end are those from some call on, and there
  are no more calls before it than there are characters;
* `ByteScanner.follows_after` — the scanner over bytes stays with the lexer;
* `Tile` — all that one call goes over, in characters and in bytes;
* `scan_tiles` — every call of every scan is such a tile, and together they are the whole text.
-/

namespace ExprMachine

open Text.Utf8

/-- The answer at the end of a text. -/
def Answer.IsEnd (answer : Answer) : Prop := ∃ line, answer = .endOfText line

/-! ### Calls of the lexer -/

namespace Cursor

/-- The place after a number of calls. -/
def after (cursor : Cursor) : Nat → Cursor
  | 0 => cursor
  | k + 1 => (cursor.after k).next.2

/-- The answer to a call, the first one being number zero. -/
def item (cursor : Cursor) (k : Nat) : Item := (cursor.after k).next.1

/-- The text that a number of calls go over. -/
def passed (cursor : Cursor) (k : Nat) : List Char :=
  (List.range k).flatMap fun i => (cursor.after i).skipped ++ (cursor.after i).own

theorem after_next (cursor : Cursor) (k : Nat) : cursor.next.2.after k = cursor.after (k + 1) := by
  induction k with
  | zero => rfl
  | succ k ih => rw [after, ih, after, after, after]

theorem item_succ (cursor : Cursor) (k : Nat) : cursor.item (k + 1) = cursor.next.2.item k := by
  rw [item, item, after_next]

theorem passed_succ (cursor : Cursor) (k : Nat) :
    cursor.passed (k + 1) =
      cursor.passed k ++ (cursor.after k).skipped ++ (cursor.after k).own := by
  simp [passed, List.range_succ, List.flatMap_append]

/-- **Nothing is lost**: what the calls went over and what is ahead make up the text. -/
theorem rest_after (cursor : Cursor) (k : Nat) :
    cursor.rest = cursor.passed k ++ (cursor.after k).rest := by
  induction k with
  | zero => rfl
  | succ k ih =>
    rw [passed_succ, List.append_assoc, List.append_assoc, ← List.append_assoc (skipped _),
      after, ← rest_eq, ← ih]

/-- **Lines are counted exactly**, whatever the line feeds stand in. -/
theorem line_after (cursor : Cursor) (k : Nat) :
    (cursor.after k).line = cursor.line + (cursor.passed k).count '\n' := by
  induction k with
  | zero => rfl
  | succ k ih =>
    rw [passed_succ, List.append_assoc, List.count_append, ← Nat.add_assoc, ← ih]
    exact line_next _

/-! ### The end -/

theorem own_eq_nil_iff (cursor : Cursor) : cursor.own = [] ↔ cursor.ahead = [] := by
  cases h : cursor.ahead with
  | nil => simp [own, h]
  | cons c s => simpa [own, h] using Lexeme.text_ne_nil c s

/-- A call answers with the end where it has no text of its own. -/
theorem isEnd_next_iff (cursor : Cursor) : cursor.next.1.answer.IsEnd ↔ cursor.own = [] := by
  rw [own_eq_nil_iff]
  cases h : cursor.ahead with
  | nil =>
    rw [next_of_ahead_nil h]
    exact iff_of_true ⟨_, rfl⟩ rfl
  | cons c s =>
    rw [next_of_ahead_cons h, Lexeme.answer_item]
    refine iff_of_false ?_ (List.cons_ne_nil c s)
    rintro ⟨line, hend⟩
    unfold Answer.of at hend
    split at hend <;> cases hend

theorem rest_next_of_own_nil {cursor : Cursor} (h : cursor.own = []) :
    cursor.next.2.rest = [] := by
  rw [next_of_ahead_nil (cursor.own_eq_nil_iff.1 h)]

theorem own_of_rest_nil {cursor : Cursor} (h : cursor.rest = []) : cursor.own = [] := by
  have hpieces := cursor.rest_eq
  rw [h] at hpieces
  exact (List.append_eq_nil_iff.1 (List.append_eq_nil_iff.1 hpieces.symm).1).2

/-- The end stays the end. -/
theorem own_after_of_le {cursor : Cursor} {n k : Nat} (h : (cursor.after n).own = [])
    (hk : n ≤ k) : (cursor.after k).own = [] := by
  induction hk with
  | refl => exact h
  | step _ ih => exact own_of_rest_nil (rest_next_of_own_nil ih)

/-- **The end comes** after no more calls than there are characters. -/
theorem exists_end (cursor : Cursor) :
    ∃ n, n ≤ cursor.rest.length ∧ ∀ k, (cursor.after k).own = [] ↔ n ≤ k := by
  induction hlen : cursor.rest.length using Nat.strongRecOn generalizing cursor with
  | _ length ih =>
    subst hlen
    by_cases hown : cursor.own = []
    · exact ⟨0, Nat.zero_le _, fun k =>
        iff_of_true (own_after_of_le (n := 0) hown (Nat.zero_le k)) (Nat.zero_le k)⟩
    · have hshort : cursor.next.2.rest.length < cursor.rest.length := by
        have hlength := congrArg List.length cursor.rest_eq
        have hpos := List.length_pos_iff.2 hown
        simp only [List.length_append] at hlength
        omega
      obtain ⟨n, hn, hend⟩ := ih _ hshort cursor.next.2 rfl
      refine ⟨n + 1, by omega, fun k => ?_⟩
      cases k with
      | zero => exact iff_of_false hown (by omega)
      | succ k => rw [← after_next, hend, Nat.succ_le_succ_iff]

/-- The items of a text are what the calls answer up to the first end. -/
theorem itemsAfter_eq {cursor : Cursor} {n : Nat}
    (hend : ∀ k, (cursor.after k).own = [] ↔ n ≤ k) (read : List Item) :
    cursor.itemsAfter read = read.reverse ++ (List.range (n + 1)).map cursor.item := by
  induction n generalizing cursor read with
  | zero =>
    have hnext := next_of_ahead_nil (cursor.own_eq_nil_iff.1 ((hend 0).2 (Nat.le_refl 0)))
    rw [itemsAfter, hnext]
    simp [List.range_succ, item, after, hnext]
  | succ n ih =>
    have hown : ¬ cursor.own = [] := fun h => absurd ((hend 0).1 h) (by omega)
    have hrest : ∀ k, (cursor.next.2.after k).own = [] ↔ n ≤ k := fun k => by
      rw [after_next, hend, Nat.succ_le_succ_iff]
    have hitems : cursor.itemsAfter read = cursor.next.2.itemsAfter (cursor.next.1 :: read) := by
      rw [itemsAfter]
      split
      · rename_i line after hnext
        exact absurd (cursor.isEnd_next_iff.1 (by rw [hnext]; exact ⟨_, rfl⟩)) hown
      · rename_i e line after hnext
        rw [hnext]
      · rename_i t after hnext
        rw [hnext]
    have hitem : cursor.next.2.item = fun k => cursor.item (k + 1) := by
      funext k
      rw [item, after_next, item]
    rw [hitems, ih hrest, List.range_succ_eq_map (n := n + 1), List.map_cons, List.map_map, hitem,
      List.reverse_cons, List.append_assoc]
    rfl

end Cursor

/-! ### Calls of the scanner over bytes -/

namespace ByteScanner

/-- The scanner after a number of calls. -/
def after (s : ByteScanner) : Nat → ByteScanner
  | 0 => s
  | k + 1 => (s.after k).next.2

/-- The answer to a call, the first one being number zero. -/
def answer (s : ByteScanner) (k : Nat) : Answer := (s.after k).next.1

/-- **The scanner over bytes stays with the lexer**, call after call. -/
theorem follows_after (source : String) (k : Nat) :
    ((new source).after k).Follows ((Cursor.start source.toList).after k)
      ((Cursor.start source.toList).passed k) := by
  induction k with
  | zero => exact follows_new source
  | succ k ih =>
    rw [Cursor.passed_succ]
    exact (next_of_follows ih).2.1

end ByteScanner

/-! ### Tiles -/

/-- What the next call goes over in a source of which `passed` is already behind it. The lexer is at
`cursor` and the scanner over bytes is `s`. -/
structure Tile (source : String) (passed : List Char) (cursor : Cursor) (s : ByteScanner) :
    Prop where
  /-- The text skipped and the text of the answer come next in the source. -/
  whole : source.toList = passed ++ cursor.skipped ++ cursor.own ++ cursor.next.2.rest
  off : s.off = size passed
  start : s.next.2.start = size (passed ++ cursor.skipped)
  stop : s.next.2.off = size (passed ++ cursor.skipped ++ cursor.own)
  forward : s.off ≤ s.next.2.off
  progress : ¬ s.next.1.IsEnd → s.off < s.next.2.off
  start_valid : String.Pos.Raw.IsValid source ⟨s.next.2.start⟩
  stop_valid : String.Pos.Raw.IsValid source ⟨s.next.2.off⟩
  text : s.next.2.text = encode cursor.own
  skippable : Skippable (cursor.own ++ cursor.next.2.rest) cursor.skipped
  /-- The answer is the end, where nothing is left, or it has the text and the line of a lexeme. -/
  answer :
    (s.next.1 = .endOfText s.next.2.line ∧ cursor.own = [] ∧ cursor.next.2.rest = []) ∨
      ∃ shape, s.next.1 = .of shape (encode cursor.own) s.next.2.line ∧
        HasText cursor.own cursor.next.2.rest shape
  line : s.next.2.line.toNat = 1 + (passed ++ cursor.skipped ++ cursor.own).count '\n'

/-- Lines are counted in 32 bits, which is enough. -/
theorem toNat_line {n : Nat} (h : n < 2 ^ 32 - 1) : (UInt32.ofNat (1 + n)).toNat = 1 + n := by
  rw [UInt32.toNat_ofNat']
  omega

/-- **One call** on a source that is read so far. -/
theorem tile_of_follows {source : String} {passed : List Char} {cursor : Cursor} {s : ByteScanner}
    (hfollows : s.Follows cursor passed) (hwhole : source.toList = passed ++ cursor.rest)
    (hline : cursor.line = 1 + passed.count '\n')
    (hfeeds : source.toList.count '\n' < 2 ^ 32 - 1) : Tile source passed cursor s := by
  obtain ⟨hanswer, hnext, hstart⟩ := ByteScanner.next_of_follows hfollows
  have hsplit : source.toList =
      passed ++ cursor.skipped ++ cursor.own ++ cursor.next.2.rest := by
    rw [List.append_assoc, List.append_assoc, ← List.append_assoc cursor.skipped, ← cursor.rest_eq]
    exact hwhole
  have hsizes : size (passed ++ cursor.skipped ++ cursor.own) =
      size passed + size cursor.skipped + size cursor.own := by
    rw [size_append, size_append]
  have hcount : (passed ++ cursor.skipped ++ cursor.own).count '\n' ≤ source.toList.count '\n' := by
    rw [hsplit]
    exact (List.sublist_append_left _ _).count_le _
  have hend : s.next.2.line =
      UInt32.ofNat (1 + (passed ++ cursor.skipped ++ cursor.own).count '\n') := by
    rw [hnext.line, cursor.line_next, hline]
    simp only [List.count_append, Nat.add_assoc]
  constructor
  case whole => exact hsplit
  case off => exact hfollows.place.off
  case start => exact hstart
  case stop => exact hnext.place.off
  case forward =>
    rw [hfollows.place.off, hnext.place.off, hsizes]
    omega
  case progress =>
    intro hnot
    rw [hanswer, cursor.isEnd_next_iff] at hnot
    have hpos := Nat.lt_of_lt_of_le (List.length_pos_iff.2 hnot) (length_le_size cursor.own)
    rw [hfollows.place.off, hnext.place.off, hsizes]
    omega
  case start_valid =>
    rw [hstart]
    exact isValid_size (by rw [hsplit, List.append_assoc])
  case stop_valid =>
    rw [hnext.place.off]
    exact isValid_size hsplit
  case text => exact hnext.place.text_eq hstart
  case skippable =>
    rw [← cursor.ahead_eq]
    exact cursor.cut.skippable
  case answer =>
    cases cursor.answers with
    | atEnd hown hrest hitem =>
      refine Or.inl ⟨?_, hown, hrest⟩
      rw [hanswer, hitem, hnext.line]
      rfl
    | lexeme shape htext hitem =>
      refine Or.inr ⟨shape, ?_, htext⟩
      rw [hanswer, hitem, Lexeme.answer_item, hnext.line]
  case line =>
    rw [hend, toNat_line (Nat.lt_of_le_of_lt hcount hfeeds)]

/-- **The scanner tiles its input and counts lines exactly.** Every call of a scan is a tile, the
scan comes to the end after no more calls than there are bytes and stays there, and what it has gone
over then is the source. The answers up to the first end are the items of the source. -/
theorem scan_tiles (source : String) (hfeeds : source.toList.count '\n' < 2 ^ 32 - 1) :
    (∀ k, Tile source ((Cursor.start source.toList).passed k)
      ((Cursor.start source.toList).after k) ((ByteScanner.new source).after k)) ∧
    ∃ n, n ≤ source.utf8ByteSize ∧
      (∀ k, ((ByteScanner.new source).answer k).IsEnd ↔ n ≤ k) ∧
      (Cursor.start source.toList).passed (n + 1) = source.toList ∧
      (List.range (n + 1)).map (ByteScanner.new source).answer =
        (Cursor.start source.toList).items.map Item.answer := by
  obtain ⟨n, hn, hend⟩ := (Cursor.start source.toList).exists_end
  have hanswer : ∀ k, (ByteScanner.new source).answer k =
      ((Cursor.start source.toList).item k).answer := fun k =>
    (ByteScanner.next_of_follows (ByteScanner.follows_after source k)).1
  refine ⟨fun k => ?_, n, ?_, fun k => ?_, ?_, ?_⟩
  · exact tile_of_follows (ByteScanner.follows_after source k)
      ((Cursor.start source.toList).rest_after k) ((Cursor.start source.toList).line_after k) hfeeds
  · have hchars := length_le_size source.toList
    rw [size_toList] at hchars
    exact Nat.le_trans hn hchars
  · rw [hanswer, Cursor.item, Cursor.isEnd_next_iff, hend]
  · have hrest : ((Cursor.start source.toList).after (n + 1)).rest = [] :=
      Cursor.rest_next_of_own_nil ((hend n).2 (Nat.le_refl n))
    have hwhole := (Cursor.start source.toList).rest_after (n + 1)
    rw [hrest, List.append_nil] at hwhole
    exact hwhole.symm
  · rw [Cursor.items, Cursor.itemsAfter_eq hend, List.reverse_nil, List.nil_append, List.map_map]
    exact List.map_congr_left fun k _ => hanswer k

/-- Strings, comments and refused characters beyond ASCII, with line feeds between and in them. -/
theorem scan_tiles_multibyte :
    "\"é\n\" // ü\n¤ 1".toList.count '\n' < 2 ^ 32 - 1 ∧
      Tile "\"é\n\" // ü\n¤ 1" ((Cursor.start "\"é\n\" // ü\n¤ 1".toList).passed 1)
        ((Cursor.start "\"é\n\" // ü\n¤ 1".toList).after 1)
        ((ByteScanner.new "\"é\n\" // ü\n¤ 1").after 1) :=
  ⟨by decide, (scan_tiles "\"é\n\" // ü\n¤ 1" (by decide)).1 1⟩

end ExprMachine
