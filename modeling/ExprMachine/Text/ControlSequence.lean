/-!
# Control sequences

A terminal takes some stretches of a text as orders: they begin with the escape character, and how
they go on says where they end.

* `TerminalMode` — where a terminal is in such a stretch;
* `TerminalMode.next`, `TerminalMode.shows` — what a character does in a mode, and whether it is
  seen;
* `Terminal` — the mode and what has been seen so far;
* `withoutControls` — the text without orders and without controls other than line layout.

What is left is in the order in which it stood (`withoutControls_sublist`), and a text without
controls stays as it is (`withoutControls_eq_self`).
-/

namespace ExprMachine.Text

/-- The blanks that lay out lines: tabulator, line feed, form feed and carriage return. -/
def isLayout (c : Char) : Bool := c == '\t' || c == '\n' || c == '\x0C' || c == '\r'

/-- A character that is seen as it is. -/
def isVisible (c : Char) : Bool := (0x20 ≤ c.toNat && c.toNat ≠ 0x7F) || isLayout c

/-- Where a terminal is in an order. -/
inductive TerminalMode where
  /-- Not in an order. -/
  | text
  /-- After the escape character. -/
  | escape
  /-- In an order of a few characters whose last is still to come. -/
  | short
  /-- In an order with parameters. -/
  | control
  /-- In an order to the system, up to a bell. -/
  | system
  /-- At the beginning, in the parameters and after the parameters of an order to a device. -/
  | device
  | deviceParameters
  | deviceEnd
  /-- In data for a device and the like. -/
  | data
  deriving DecidableEq, Repr

namespace TerminalMode

/-- Whether a character is seen. Line layout is seen in short orders and in those with parameters.
-/
def shows (mode : TerminalMode) (c : Char) : Bool :=
  match mode with
  | text => isVisible c
  | escape | short | control => isLayout c
  | _ => false

/-- What an ASCII character after the escape character begins. -/
def begun (c : Char) : TerminalMode :=
  if c = '[' then control
  else if c = ']' then system
  else if c = 'P' then device
  else if c = 'X' ∨ c = '^' ∨ c = '_' then data
  else if ' ' ≤ c ∧ c ≤ '/' then short
  else if '0' ≤ c ∧ c ≤ '~' then text
  else escape

/-- Whether a character's code in UTF-8 holds the byte that ends data. -/
def endsData (c : Char) : Bool := !c.toNat < 0x80 && (String.utf8EncodeChar c).contains 0x9C

/-- The mode after a character. Cancel and substitute end every order, and the escape character
begins another one. -/
def next (mode : TerminalMode) (c : Char) : TerminalMode :=
  if c = '\x18' ∨ c = '\x1A' then text
  else if c = '\x1B' then escape
  else match mode with
    | text => text
    | escape => if isLayout c then text else begun c
    | short => if isLayout c ∨ '0' ≤ c ∧ c ≤ '~' then text else short
    | control => if isLayout c ∨ '@' ≤ c ∧ c ≤ '~' then text else control
    | system => if c = '\x07' then text else system
    | device =>
      if ' ' ≤ c ∧ c ≤ '/' then deviceEnd
      else if '0' ≤ c ∧ c ≤ '?' then deviceParameters
      else if '@' ≤ c ∧ c ≤ '~' then data
      else device
    | deviceParameters =>
      if ' ' ≤ c ∧ c ≤ '/' then deviceEnd
      else if '<' ≤ c ∧ c ≤ '~' then data
      else deviceParameters
    | deviceEnd => if '0' ≤ c ∧ c ≤ '~' then data else deviceEnd
    | data => if endsData c then text else data

end TerminalMode

/-- A terminal that has been shown some text: its mode, and what is seen, latest character first. -/
structure Terminal where
  mode : TerminalMode := .text
  seen : List Char := []
  deriving DecidableEq, Repr

/-- Show a character. -/
def Terminal.feed (t : Terminal) (c : Char) : Terminal where
  mode := t.mode.next c
  seen := if t.mode.shows c then c :: t.seen else t.seen

/-- A text without orders to a terminal, and without controls other than line layout. -/
def withoutControls (s : List Char) : List Char := (s.foldl Terminal.feed {}).seen.reverse

theorem Terminal.seen_foldl_feed (t : Terminal) (s : List Char) :
    ∃ shown : List Char, shown.Sublist s ∧ (s.foldl feed t).seen = shown.reverse ++ t.seen := by
  induction s generalizing t with
  | nil => exact ⟨[], .slnil, rfl⟩
  | cons c s ih =>
    obtain ⟨shown, hsub, heq⟩ := ih (t.feed c)
    by_cases h : t.mode.shows c
    · exact ⟨c :: shown, hsub.cons_cons c, by rw [List.foldl_cons, heq]; simp [feed, h]⟩
    · exact ⟨shown, hsub.cons c, by rw [List.foldl_cons, heq]; simp [feed, h]⟩

/-- What is left is in the order in which it stood. -/
theorem withoutControls_sublist (s : List Char) : (withoutControls s).Sublist s := by
  obtain ⟨shown, hsub, heq⟩ := Terminal.seen_foldl_feed {} s
  simpa [withoutControls, heq] using hsub

/-- No visible character begins an order. -/
theorem TerminalMode.next_text (c : Char) (h : isVisible c = true) : next text c = text := by
  unfold next
  split
  · rfl
  · split
    · next he => subst he; exact absurd h (by decide)
    · rfl

theorem Terminal.foldl_feed_of_visible (seen s : List Char) (h : ∀ c ∈ s, isVisible c = true) :
    s.foldl feed { seen } = { seen := s.reverse ++ seen } := by
  induction s generalizing seen with
  | nil => rfl
  | cons c s ih =>
    simp only [List.mem_cons, forall_eq_or_imp] at h
    have hfeed : feed { seen } c = { seen := c :: seen } := by
      simp [feed, TerminalMode.shows, h.1, TerminalMode.next_text c h.1]
    simp [hfeed, ih _ h.2]

/-- A text without controls stays as it is. -/
theorem withoutControls_eq_self (s : List Char) (h : ∀ c ∈ s, isVisible c = true) :
    withoutControls s = s := by
  simp [withoutControls, Terminal.foldl_feed_of_visible [] s h]

end ExprMachine.Text
