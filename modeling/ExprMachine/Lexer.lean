import ExprMachine.Token

/-!
# The lexer

Tokens are read one after the other from a text; blanks and comments stand between them.

* `Cursor` — the text still ahead, and the line on which it begins;
* `skipBlank` — past blanks and comments;
* `Lexeme.read` — the longest token that a text begins with, and the rest of the text;
  `Lexeme.text_append_rest` says that nothing is lost;
* `Cursor.next` — the next item: a token, an error or the end of the text;
* `Cursor.items` — all items of a text, errors included;
* `Cursor.tokens` — the tokens of a text up to its end or its first error.
-/

namespace ExprMachine

/-- A place in a text. -/
structure Cursor where
  rest : List Char
  line : Nat
  deriving DecidableEq, Repr

/-- What stands at a place in a text. -/
inductive Item where
  | token (t : Token)
  | error (e : LexicalError) (line : Nat)
  | endOfText (line : Nat)
  deriving DecidableEq, Repr

/-! ### Blanks and comments -/

/-- Skip blanks, and comments from two slashes to the end of their line. -/
def skipBlank (inComment : Bool) (line : Nat) : List Char → Cursor
  | [] => ⟨[], line⟩
  | c :: rest =>
    if c = '\n' then skipBlank false (line + 1) rest
    else if inComment then skipBlank true line rest
    else if c = ' ' ∨ c = '\t' ∨ c = '\r' then skipBlank false line rest
    else if c = '/' ∧ rest.head? = some '/' then skipBlank true line rest
    else ⟨c :: rest, line⟩

theorem skipBlank_length (inComment : Bool) (line : Nat) (s : List Char) :
    (skipBlank inComment line s).rest.length ≤ s.length := by
  induction s generalizing inComment line with
  | nil => simp [skipBlank]
  | cons c s ih =>
    simp only [skipBlank, List.length_cons]
    split
    · exact Nat.le_succ_of_le (ih _ _)
    split
    · exact Nat.le_succ_of_le (ih _ _)
    split
    · exact Nat.le_succ_of_le (ih _ _)
    split
    · exact Nat.le_succ_of_le (ih _ _)
    · exact Nat.le_refl _

/-! ### Lexemes -/

/-- The beginning of a text: what it is, its characters, and the text after it. -/
structure Lexeme where
  shape : Except LexicalError TokenKind
  text : List Char
  rest : List Char

namespace Lexeme

/-- Letters and the underscore begin names. -/
def isNameStart (c : Char) : Bool := c.isAlpha || c == '_'

/-- Names go on with these and with digits. -/
def isNamePart (c : Char) : Bool := isNameStart c || c.isDigit

/-- The fraction that a text begins with: a point and at least one digit. -/
def fraction : List Char → List Char × List Char
  | '.' :: rest =>
    match rest.takeWhile Char.isDigit with
    | [] => ([], '.' :: rest)
    | digits => ('.' :: digits, rest.dropWhile Char.isDigit)
  | rest => ([], rest)

/-- A name or a keyword. -/
def word (c : Char) (s : List Char) : Lexeme :=
  let text := c :: s.takeWhile isNamePart
  { shape := .ok (match Keyword.ofText? text with
      | some k => .keyword k
      | none => .identifier)
    text
    rest := s.dropWhile isNamePart }

/-- Digits, and a fraction if one follows. -/
def number (c : Char) (s : List Char) : Lexeme :=
  let (point, rest) := fraction (s.dropWhile Char.isDigit)
  { shape := .ok .number, text := c :: s.takeWhile Char.isDigit ++ point, rest }

/-- A string up to its closing quote. -/
def string (c : Char) (s : List Char) : Lexeme :=
  let body := s.takeWhile (· ≠ '"')
  match s.dropWhile (· ≠ '"') with
  | [] => { shape := .error .unterminatedString, text := c :: body, rest := [] }
  | quote :: rest => { shape := .ok .string, text := c :: body ++ [quote], rest }

/-- The token that a character is whatever follows it. -/
def single? : Char → Option TokenKind
  | '(' => some .leftParen
  | ')' => some .rightParen
  | '{' => some .leftBrace
  | '}' => some .rightBrace
  | ';' => some .semicolon
  | ',' => some .comma
  | '.' => some .dot
  | '-' => some .minus
  | '+' => some .plus
  | '/' => some .slash
  | '*' => some .star
  | _ => none

/-- The tokens that a character is, alone and with an equals sign after it. -/
def paired? : Char → Option (TokenKind × TokenKind)
  | '!' => some (.bang, .bangEqual)
  | '=' => some (.equal, .equalEqual)
  | '<' => some (.less, .lessEqual)
  | '>' => some (.greater, .greaterEqual)
  | _ => none

/-- A character that may be followed by an equals sign. -/
def withEqual (alone joined : TokenKind) (c : Char) : List Char → Lexeme
  | '=' :: rest => { shape := .ok joined, text := [c, '='], rest }
  | rest => { shape := .ok alone, text := [c], rest }

/-- The longest token that begins with `c` and goes on in `s`. -/
def read (c : Char) (s : List Char) : Lexeme :=
  if isNameStart c then word c s
  else if c.isDigit then number c s
  else if c = '"' then string c s
  else match single? c, paired? c with
    | some kind, _ => { shape := .ok kind, text := [c], rest := s }
    | none, some (alone, joined) => withEqual alone joined c s
    | none, none => { shape := .error .unexpectedCharacter, text := [c], rest := s }

/-! ### Nothing is lost -/

theorem fraction_append (s : List Char) : (fraction s).1 ++ (fraction s).2 = s := by
  unfold fraction
  split
  · rename_i rest
    have happend := List.takeWhile_append_dropWhile (p := Char.isDigit) (l := rest)
    split
    · rfl
    · rw [List.cons_append, happend]
  · rfl

theorem word_append (c : Char) (s : List Char) : (word c s).text ++ (word c s).rest = c :: s := by
  simp [word, List.takeWhile_append_dropWhile]

theorem number_append (c : Char) (s : List Char) :
    (number c s).text ++ (number c s).rest = c :: s := by
  simp [number, fraction_append, List.takeWhile_append_dropWhile]

theorem string_append (c : Char) (s : List Char) :
    (string c s).text ++ (string c s).rest = c :: s := by
  have happend := List.takeWhile_append_dropWhile (p := fun a => decide (a ≠ '"')) (l := s)
  simp only [string]
  split
  · rename_i hrest
    rw [hrest, List.append_nil] at happend
    rw [List.append_nil, happend]
  · rename_i hrest
    rw [hrest] at happend
    simpa using happend

theorem withEqual_append (alone joined : TokenKind) (c : Char) (s : List Char) :
    (withEqual alone joined c s).text ++ (withEqual alone joined c s).rest = c :: s := by
  unfold withEqual
  split <;> rfl

/-- The text of a lexeme and the text after it make up what was read. -/
theorem text_append_rest (c : Char) (s : List Char) :
    (read c s).text ++ (read c s).rest = c :: s := by
  unfold read
  split
  · exact word_append c s
  split
  · exact number_append c s
  split
  · exact string_append c s
  split
  · rfl
  · exact withEqual_append _ _ c s
  · rfl

theorem withEqual_text_ne_nil (alone joined : TokenKind) (c : Char) (s : List Char) :
    (withEqual alone joined c s).text ≠ [] := by
  unfold withEqual
  split <;> exact List.cons_ne_nil _ _

theorem text_ne_nil (c : Char) (s : List Char) : (read c s).text ≠ [] := by
  unfold read
  split
  · exact List.cons_ne_nil _ _
  split
  · exact List.cons_ne_nil _ _
  split
  · simp only [string]
    split <;> exact List.cons_ne_nil _ _
  split
  · exact List.cons_ne_nil _ _
  · exact withEqual_text_ne_nil _ _ c s
  · exact List.cons_ne_nil _ _

theorem rest_length (c : Char) (s : List Char) : (read c s).rest.length ≤ s.length := by
  have happend := congrArg List.length (text_append_rest c s)
  have htext := List.length_pos_iff.2 (text_ne_nil c s)
  simp only [List.length_append, List.length_cons] at happend
  omega

end Lexeme

/-! ### Items -/

namespace Cursor

/-- The beginning of a text. -/
def start (text : List Char) : Cursor := ⟨text, 1⟩

/-- The next item and the place after it. An item's line is the one on which its text ends. -/
def next (cursor : Cursor) : Item × Cursor :=
  match skipBlank false cursor.line cursor.rest with
  | ⟨[], line⟩ => (.endOfText line, ⟨[], line⟩)
  | ⟨c :: s, line⟩ =>
    let lexeme := Lexeme.read c s
    let last := line + lexeme.text.count '\n'
    let item := match lexeme.shape with
      | .ok kind => .token ⟨kind, lexeme.text, last⟩
      | .error e => .error e last
    (item, ⟨lexeme.rest, last⟩)

theorem next_length (cursor : Cursor) :
    (∃ line, cursor.next = (.endOfText line, ⟨[], line⟩)) ∨
      cursor.next.2.rest.length < cursor.rest.length := by
  have hskip := skipBlank_length false cursor.line cursor.rest
  unfold next
  split
  · exact Or.inl ⟨_, rfl⟩
  · rename_i c s line heq
    rw [heq] at hskip
    have hrest := Lexeme.rest_length c s
    simp only [List.length_cons] at hskip
    exact Or.inr (by simp only; omega)

/-- The items from a place on, after those already `read`, latest first. -/
def itemsAfter (read : List Item) (cursor : Cursor) : List Item :=
  match _h : cursor.next with
  | (.endOfText line, _) => (.endOfText line :: read).reverse
  | (.error e line, after) => itemsAfter (.error e line :: read) after
  | (.token t, after) => itemsAfter (.token t :: read) after
termination_by cursor.rest.length
decreasing_by
  all_goals
    rcases next_length cursor with ⟨line, hend⟩ | hlt
    · simp_all
    · rwa [_h] at hlt

/-- All items of a text, errors included, the end of the text being the last. -/
def items (cursor : Cursor) : List Item := cursor.itemsAfter []

/-- How a sequence of tokens ends. -/
inductive Ending where
  | endOfText (line : Nat)
  | error (e : LexicalError) (line : Nat)
  deriving DecidableEq, Repr

/-- The tokens from a place on, after those already `read`, latest first. -/
def tokensAfter (read : List Token) (cursor : Cursor) : List Token × Ending :=
  match _h : cursor.next with
  | (.endOfText line, _) => (read.reverse, .endOfText line)
  | (.error e line, _) => (read.reverse, .error e line)
  | (.token t, after) => tokensAfter (t :: read) after
termination_by cursor.rest.length
decreasing_by
  rcases next_length cursor with ⟨line, hend⟩ | hlt
  · simp_all
  · rwa [_h] at hlt

/-- The tokens of a text up to its end or its first error, and which of the two it is. -/
def tokens (cursor : Cursor) : List Token × Ending := cursor.tokensAfter []

end Cursor

end ExprMachine
