/-!
# Quoted strings and comments

Strings in assembly stand between quotes. A backslash takes the character after it as it is, but
`n` and `t` after a backslash are a line feed and a tab. A semicolon outside quotes begins a
comment.

* `dropComment` — a line without its comment;
* `readQuoted` — the characters that a quoted string stands for.
-/

namespace ExprMachine.Assembly

/-! ### Comments -/

/-- Where a character of a line stands. -/
inductive Mode where
  | code
  | quoted
  | escaped
  deriving DecidableEq, Repr

/-- Where the character after `c` stands. -/
def Mode.next : Mode → Char → Mode
  | code, c => if c = '"' then quoted else code
  | quoted, c => if c = '\\' then escaped else if c = '"' then code else quoted
  | escaped, _ => quoted

/-- The number of characters before the comment, those already counted included. -/
def codeLength (mode : Mode) (counted : Nat) : List Char → Nat
  | [] => counted
  | c :: rest =>
    if mode = .code ∧ c = ';' then counted else codeLength (mode.next c) (counted + 1) rest

/-- A line without its comment. -/
def dropComment (line : List Char) : List Char := line.take (codeLength .code 0 line)

theorem codeLength_add (mode : Mode) (counted : Nat) (s : List Char) :
    codeLength mode counted s = counted + codeLength mode 0 s := by
  induction s generalizing mode counted with
  | nil => rfl
  | cons c s ih =>
    simp only [codeLength]
    split
    · rfl
    · rw [ih _ (counted + 1), ih _ (0 + 1)]
      omega

theorem codeLength_le (s : List Char) : ∀ mode, codeLength mode 0 s ≤ s.length := by
  induction s with
  | nil =>
    intro mode
    exact Nat.le_refl _
  | cons c s ih =>
    intro mode
    simp only [codeLength, List.length_cons]
    split
    · exact Nat.zero_le _
    · rw [codeLength_add]
      have h := ih (mode.next c)
      omega

/-! ### Escapes -/

/-- Why a text is not a quoted string. -/
inductive QuoteError where
  | notClosed
  | openEscape
  deriving DecidableEq, Repr

/-- The character that stands for itself, or for a control character, after a backslash. -/
def unescaped : Char → Char
  | 'n' => '\n'
  | 't' => '\t'
  | c => c

/-- The characters that a body stands for, after those already `read`, latest first. -/
def readBody (read : List Char) : List Char → Except QuoteError (List Char)
  | [] => .ok read.reverse
  | ['\\'] => .error .openEscape
  | '\\' :: c :: rest => readBody (unescaped c :: read) rest
  | c :: rest => readBody (c :: read) rest

/-- The characters that a quoted string stands for. It is a quote, a body and a quote; quotes inside
the body are taken as they are. -/
def readQuoted (text : List Char) : Except QuoteError (List Char) :=
  if text.length < 2 ∨ text.head? ≠ some '"' ∨ text.getLast? ≠ some '"' then .error .notClosed
  else readBody [] (text.drop 1).dropLast

end ExprMachine.Assembly
