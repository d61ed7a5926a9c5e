/-!
# Blank characters and words

Which characters separate words, and the cuts of a text that depend on them:

* `isBlank` — the characters with the White_Space property, all 25 of them;
* `trim`, `trimStart`, `trimEnd` — a text without the blanks at its ends;
* `splitOnce` — a text cut at the first character of a class, that character dropped;
* `firstWord` — the first run of characters that are not blank, with what follows it.

Texts are lists of characters here; nothing depends on how they are stored.
-/

namespace ExprMachine.Text

/-! ### The character class -/

/-- The characters with the White_Space property. -/
def isBlank (c : Char) : Bool :=
  let n := c.toNat
  (9 ≤ n && n ≤ 13) || n == 0x20 || n == 0x85 || n == 0xA0 || n == 0x1680 ||
    (0x2000 ≤ n && n ≤ 0x200A) || n == 0x2028 || n == 0x2029 || n == 0x202F ||
    n == 0x205F || n == 0x3000

/-- Every character that core calls whitespace is blank. -/
theorem isBlank_of_isWhitespace (c : Char) (h : c.isWhitespace = true) : isBlank c = true := by
  simp only [Char.isWhitespace, Bool.or_eq_true, decide_eq_true_eq] at h
  rcases h with ((rfl | rfl) | rfl) | rfl <;> decide

/-! ### Cuts -/

/-- The text from its first character that is not blank. -/
def trimStart (s : List Char) : List Char := s.dropWhile isBlank

/-- The text up to its last character that is not blank. -/
def trimEnd (s : List Char) : List Char := (s.reverse.dropWhile isBlank).reverse

/-- The text without the blanks at either end. -/
def trim (s : List Char) : List Char := trimEnd (trimStart s)

/-- What stands before and after the first character of class `p`, if there is one. -/
def splitOnce (p : Char → Bool) (s : List Char) : Option (List Char × List Char) :=
  match s.dropWhile fun c => !p c with
  | [] => none
  | _ :: after => some (s.takeWhile fun c => !p c, after)

/-- The first word of a text, empty when there is none, and the text after it. -/
def firstWord (s : List Char) : List Char × List Char :=
  let text := trimStart s
  (text.takeWhile fun c => !isBlank c, text.dropWhile fun c => !isBlank c)

end ExprMachine.Text
