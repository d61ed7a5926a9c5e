import ExprMachine.Number.Decimal

/-!
# Numerals

The written forms of numbers.

* `Numeral.value` — the number that a sequence of decimal digits writes;
* `Numeral.atMost?` — a natural number up to a bound, a plus sign allowed before it;
* `Numeral.decimal?` — digits with an optional point and an optional exponent;
* `Numeral.binary64?` — a signed decimal or one of the words for infinity and NaN, as a double.
-/

namespace ExprMachine.Numeral

/-! ### Natural numbers -/

/-- The number that a sequence of decimal digits writes. -/
def value (digits : List Char) : Nat :=
  digits.foldl (fun n c => 10 * n + (c.toNat - '0'.toNat)) 0

@[simp]
theorem value_nil : value [] = 0 := rfl

/-- Whether a text is one digit or more. -/
def isDigits (s : List Char) : Bool := s ≠ [] && s.all Char.isDigit

/-- The natural number that a text writes, if it does not exceed `bound`. -/
def atMost? (bound : Nat) (s : List Char) : Option Nat :=
  let digits := match s with
    | '+' :: rest => rest
    | s => s
  if isDigits digits && value digits ≤ bound then some (value digits) else none

/-! ### Decimals -/

/-- The value of the digits of an exponent. Once a digit has brought it to 65536 or more, the digits
after it count for nothing. -/
def exponentValue (digits : List Char) : Nat :=
  digits.foldl (fun n c => if n < 65536 then 10 * n + (c.toNat - '0'.toNat) else n) 0

/-- The exponent that ends a decimal. Without the letter there is none, and after it there must be
digits. -/
def exponent? : List Char → Option Int
  | [] => some 0
  | c :: rest =>
    if c = 'e' ∨ c = 'E' then
      match rest with
      | '-' :: digits => if isDigits digits then some (-exponentValue digits) else none
      | '+' :: digits => if isDigits digits then some (exponentValue digits) else none
      | digits => if isDigits digits then some (exponentValue digits) else none
    else none

/-- A decimal without a sign. The point may stand before, between or after the digits, of which
there is at least one. -/
def decimal? (s : List Char) : Option Decimal :=
  let whole := s.takeWhile Char.isDigit
  let (fraction, rest) := match s.dropWhile Char.isDigit with
    | '.' :: r => (r.takeWhile Char.isDigit, r.dropWhile Char.isDigit)
    | r => ([], r)
  if whole = [] ∧ fraction = [] then none
  else (exponent? rest).map fun e =>
    { digits := value (whole ++ fraction), exponent := e - fraction.length }

/-! ### Doubles -/

/-- A double without a sign: a decimal, or a word in any case of letters. -/
def unsigned? (s : List Char) : Option Binary64 :=
  match decimal? s with
  | some d => some d.toBinary64
  | none =>
    let word := String.ofList (s.map Char.toLower)
    if word = "inf" ∨ word = "infinity" then some .infinity
    else if word = "nan" then some .nan
    else none

/-- The double that a text writes. -/
def binary64? : List Char → Option Binary64
  | '-' :: s => (unsigned? s).map Binary64.neg
  | '+' :: s => unsigned? s
  | s => unsigned? s

end ExprMachine.Numeral
