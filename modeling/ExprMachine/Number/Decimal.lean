import ExprMachine.Number.Binary64

/-!
# Decimals

Numbers as written: digits and a power of ten. This module goes from a decimal to a double and
back.

* `Decimal.toBinary64` — the double nearest to a decimal;
* `Decimal.exact` — the decimal that a finite double is;
* `Decimal.shortest` — the decimal with the fewest digits that is read back as a given double,
  the nearest of those;
* `Decimal.layout` — a decimal without exponent, point and zeros as needed;
* `Decimal.fixed` — a double with a given number of decimal places.

`Decimal.onGrid?_readsBack` is what makes the shortest text usable: a decimal is chosen only after
it has been read back.
-/

namespace ExprMachine

/-- The number `digits * 10 ^ exponent`. -/
structure Decimal where
  digits : Nat
  exponent : Int
  deriving DecidableEq, Repr

namespace Decimal

/-- The quotient `digits * 10 ^ e` as numerator and denominator. -/
def ratio (digits : Nat) (e : Int) : Nat × Nat := (digits * Nat.pow 10 e.toNat, Nat.pow 10 (-e).toNat)

/-- An exponent in the range that matters for `digits`: above it every decimal is infinite as a
double, and below it every decimal is zero. -/
def clampExponent (digits : Nat) (e : Int) : Int :=
  max (min e 400) (-(digits.log2 : Int) - 1100)

/-- The double nearest to a decimal. -/
def toBinary64 (d : Decimal) : Binary64 :=
  let (num, den) := ratio d.digits (clampExponent d.digits d.exponent)
  Binary64.ofRatio num den

/-! ### From a double -/

/-- The decimal that a finite double is, leaving its sign out: a power of two below one is a power
of five over a power of ten. -/
def exact (x : Binary64) : Decimal :=
  let e := x.exponent
  if 0 ≤ e then { digits := x.significand * Nat.pow 2 e.toNat, exponent := 0 }
  else { digits := x.significand * Nat.pow 5 (-e).toNat, exponent := e }

/-- Whether reading a decimal gives the double `x`, the sign left out. -/
def ReadsBack (x : Binary64) (d : Decimal) : Prop := d.toBinary64.magnitude = x.magnitude

instance (x : Binary64) (d : Decimal) : Decidable (ReadsBack x d) :=
  inferInstanceAs (Decidable (_ = _))

/-- The absolute value of a finite double as numerator and denominator. -/
def absoluteRatio (x : Binary64) : Nat × Nat :=
  (x.significand * Nat.pow 2 x.exponent.toNat, Nat.pow 2 (-x.exponent).toNat)

/-- The best decimal with exponent `e` that reads back as `x`, if one does: of the two neighbours of
`x` on that grid the one that reads back, of two such the nearer, of two equally near the greater.
-/
def onGrid? (x : Binary64) (e : Int) : Option Decimal :=
  let (num, den) := absoluteRatio x
  let n := num * Nat.pow 10 (-e).toNat
  let d := den * Nat.pow 10 e.toNat
  let below : Decimal := ⟨n / d, e⟩
  let above : Decimal := ⟨n / d + 1, e⟩
  match decide (ReadsBack x below), decide (ReadsBack x above) with
  | true, true => some (if 2 * (n % d) < d then below else above)
  | true, false => some below
  | false, true => some above
  | false, false => none

/-- The best decimal on the first grid that has one, of `count` grids from exponent `e` down; the
exact decimal when none has. -/
def firstOnGrids (x : Binary64) : Nat → Int → Decimal
  | 0, _ => exact x
  | count + 1, e =>
    match onGrid? x e with
    | some d => d
    | none => firstOnGrids x count (e - 1)

/-- An exponent of ten at or above that of a finite double: the binary exponent times a bound on
the logarithm of two, on the side that errs upwards. -/
def exponentBound (x : Binary64) : Int :=
  let top := x.exponent + x.significand.log2 + 1
  if 0 ≤ top then top * 30103 / 100000 + 1 else -(-top * 30102 / 100000)

/-- The decimal with the fewest digits that reads back as a finite double. Seventeen digits always
suffice, and the first grids may lie above the first digit. -/
def shortest (x : Binary64) : Decimal := firstOnGrids x 20 (exponentBound x)

theorem onGrid?_readsBack {x : Binary64} {e : Int} {d : Decimal} (h : onGrid? x e = some d) :
    ReadsBack x d := by
  simp only [onGrid?] at h
  split at h
  · rename_i h₁ h₂
    simp only [decide_eq_true_eq] at h₁ h₂
    split at h <;> cases h <;> assumption
  · rename_i h₁ _
    cases h
    simpa using h₁
  · rename_i _ h₂
    cases h
    simpa using h₂
  · cases h

/-! ### Text -/

/-- The decimal digits of a natural number. -/
def digitsOf (n : Nat) : List Char := Nat.toDigits 10 n

/-- The digits of `n` with `places` of them after the point. -/
def pointed (n places : Nat) : List Char :=
  let digits := digitsOf n
  let padded := List.replicate (places + 1 - digits.length) '0' ++ digits
  let whole := padded.take (padded.length - places)
  let fraction := padded.drop (padded.length - places)
  if fraction = [] then whole else whole ++ '.' :: fraction

/-- A decimal in positional notation, never with an exponent. -/
def layout (d : Decimal) : List Char :=
  if 0 ≤ d.exponent then
    if d.digits = 0 then ['0'] else digitsOf d.digits ++ List.replicate d.exponent.toNat '0'
  else pointed d.digits (-d.exponent).toNat

/-- The absolute value of a finite double with `places` digits after the point, rounded from its
exact value, a half to the even digit. -/
def fixed (x : Binary64) (places : Nat) : List Char :=
  let (num, den) := absoluteRatio x
  pointed (Binary64.roundHalfEven (num * Nat.pow 10 places) den) places

end Decimal

/-- A double in positional notation with the fewest digits that read back, without a fraction when
it is whole. -/
def Binary64.toText (x : Binary64) : List Char :=
  if x.isNaN then "NaN".toList
  else (if x.isNegative then ['-'] else []) ++
    if x.isFinite then (if x.magnitude = 0 then ['0'] else (Decimal.shortest x).layout)
    else "inf".toList

end ExprMachine
