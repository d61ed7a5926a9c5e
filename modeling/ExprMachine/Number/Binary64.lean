/-!
# Binary64 numbers

Numbers as the 64 bits of the IEEE 754 double format: a sign, eleven exponent bits and 52
fraction bits.

* `Binary64.isNaN`, `Binary64.isNegative`, `Binary64.magnitude` — the fields;
* `Binary64.equal`, `Binary64.less` — the comparisons: a NaN is unordered and unequal to
  everything, the two zeros are equal, and otherwise the order is that of sign and magnitude;
* `Binary64.neg` — the sign bit flipped, whatever the number;
* `Binary64.add`, `Binary64.sub`, `Binary64.mul`, `Binary64.div` — the rounded operations;
* `Binary64.ofRatio` — the double nearest to a quotient of natural numbers, ties to even.
-/

namespace ExprMachine

/-- A number in the double format. -/
structure Binary64 where
  bits : UInt64
  deriving DecidableEq, Repr, Inhabited

namespace Binary64

/-! ### Fields -/

/-- The weight of the sign bit, which is the 63rd power of two. -/
def signWeight : Nat := 0x8000000000000000

/-- The weight of the last exponent bit, which is the 52nd power of two. It is also that of the
leading bit of a significand. -/
def exponentWeight : Nat := 0x10000000000000

/-- The sign bit. -/
def isNegative (x : Binary64) : Bool := signWeight ≤ x.bits.toNat

/-- Exponent and fraction bits, as one natural number. Among numbers it grows with the absolute
value. -/
def magnitude (x : Binary64) : Nat := x.bits.toNat % signWeight

/-- The magnitude of the infinities. Greater magnitudes are NaNs. -/
def infiniteMagnitude : Nat := 0x7FF * exponentWeight

/-- Whether `x` is not a number. -/
def isNaN (x : Binary64) : Bool := infiniteMagnitude < x.magnitude

/-- Whether `x` is neither infinite nor a NaN. -/
def isFinite (x : Binary64) : Bool := x.magnitude < infiniteMagnitude

/-- The double with a given sign and magnitude. -/
def ofFields (negative : Bool) (magnitude : Nat) : Binary64 :=
  ⟨UInt64.ofNat (magnitude % signWeight + if negative then signWeight else 0)⟩

/-- A NaN. -/
def nan : Binary64 := ofFields false (infiniteMagnitude + exponentWeight / 2)

/-- The infinity above every number. -/
def infinity : Binary64 := ofFields false infiniteMagnitude

/-- The zero without a sign. -/
def zero : Binary64 := ofFields false 0

/-- The significand of a finite number, and the exponent of two that goes with it: the absolute
value of `x` is `significand x * 2 ^ exponent x`. -/
def significand (x : Binary64) : Nat :=
  if x.magnitude < exponentWeight then x.magnitude
  else x.magnitude % exponentWeight + exponentWeight

@[inherit_doc significand]
def exponent (x : Binary64) : Int :=
  if x.magnitude < exponentWeight then -1074 else (x.magnitude / exponentWeight : Nat) - 1075

/-! ### Comparisons -/

/-- The magnitude with its sign. The two zeros have the same key. -/
def orderKey (x : Binary64) : Int := if x.isNegative then -x.magnitude else x.magnitude

/-- Equality of numbers. -/
def equal (x y : Binary64) : Bool := !x.isNaN && !y.isNaN && x.orderKey == y.orderKey

/-- The order of numbers. -/
def less (x y : Binary64) : Bool := !x.isNaN && !y.isNaN && x.orderKey < y.orderKey

theorem equal_self (x : Binary64) : x.equal x = !x.isNaN := by simp [equal]

theorem equal_comm (x y : Binary64) : x.equal y = y.equal x := by
  simp only [equal, Bool.and_comm x.isNaN.not, BEq.comm (a := x.orderKey)]

theorem equal_trans {x y z : Binary64} (hxy : x.equal y = true) (hyz : y.equal z = true) :
    x.equal z = true := by
  simp_all [equal]

/-! ### Arithmetic -/

/-- The same number with the other sign. -/
def neg (x : Binary64) : Binary64 := ofFields (!x.isNegative) x.magnitude

/-- An operation on doubles, as one on their bits. -/
def lift (op : Float → Float → Float) (x y : Binary64) : Binary64 :=
  ⟨(op (Float.ofBits x.bits) (Float.ofBits y.bits)).toBits⟩

/-- The rounded sum. -/
def add : Binary64 → Binary64 → Binary64 := lift (· + ·)

/-- The rounded difference. -/
def sub : Binary64 → Binary64 → Binary64 := lift (· - ·)

/-- The rounded product. -/
def mul : Binary64 → Binary64 → Binary64 := lift (· * ·)

/-- The rounded quotient. -/
def div : Binary64 → Binary64 → Binary64 := lift (· / ·)

/-! ### Rounding -/

/-- The natural number nearest to `num / den`, of two equally near the even one. -/
def roundHalfEven (num den : Nat) : Nat :=
  let quotient := num / den
  let twice := 2 * (num % den)
  if den < twice ∨ (den = twice ∧ quotient % 2 = 1) then quotient + 1 else quotient

theorem roundHalfEven_mul (n : Nat) {den : Nat} (h : 0 < den) :
    roundHalfEven (n * den) den = n := by
  simp [roundHalfEven, Nat.mul_div_cancel n h, Nat.ne_of_gt h]

/-- The quotient `num / (den * 2 ^ e)` as numerator and denominator. -/
def scaled (num den : Nat) (e : Int) : Nat × Nat :=
  (num * Nat.pow 2 (-e).toNat, den * Nat.pow 2 e.toNat)

/-- The exponent of two at which `num / den` has 53 significant bits, but not below the least
exponent of the format. -/
def targetExponent (num den : Nat) : Int :=
  let guess : Int := max ((num.log2 : Int) - den.log2 - 53) (-1074)
  let (n, d) := scaled num den guess
  if d * (2 * exponentWeight) ≤ n then guess + 1 else guess

/-- The double nearest to `num / den`, ties to even; infinity from the point where the format's
exponents end. The significand is added to the exponent field with its leading bit, so that a
carry out of the significand raises the exponent by itself. -/
def ofRatio (num den : Nat) : Binary64 :=
  if num = 0 then zero
  else
    let e := targetExponent num den
    let (n, d) := scaled num den e
    ofFields false (min (roundHalfEven n d + (e + 1074).toNat * exponentWeight) infiniteMagnitude)

/-- The double nearest to a natural number. -/
def ofNat (n : Nat) : Binary64 := ofRatio n 1

end Binary64

end ExprMachine
