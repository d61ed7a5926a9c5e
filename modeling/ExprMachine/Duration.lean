import ExprMachine.Number.Decimal

/-!
# Durations

Spans of time, and their short text: whole microseconds below a millisecond, whole milliseconds
below a second, and seconds with three places from there on.
-/

namespace ExprMachine

/-- A span of time: whole seconds, and nanoseconds less than a second. -/
structure Duration where
  seconds : Nat
  nanoseconds : Nat
  deriving DecidableEq, Repr

namespace Duration

/-- A duration of nanoseconds. -/
def ofNanoseconds (n : Nat) : Duration := ⟨n / 1000000000, n % 1000000000⟩

/-- The whole microseconds of a duration. -/
def microseconds (d : Duration) : Nat := d.seconds * 1000000 + d.nanoseconds / 1000

/-- The seconds of a duration as a double: the whole ones, and the rounded fraction added. -/
def inSeconds (d : Duration) : Binary64 :=
  (Binary64.ofNat d.seconds).add ((Binary64.ofNat d.nanoseconds).div (Binary64.ofNat 1000000000))

/-- A duration in the unit that suits its length. -/
def text (d : Duration) : String :=
  let micros := d.microseconds
  if micros < 1000 then s!"{micros} µs"
  else if micros / 1000 < 1000 then s!"{micros / 1000} ms"
  else String.ofList (Decimal.fixed d.inSeconds 3) ++ " s"

end Duration

end ExprMachine
