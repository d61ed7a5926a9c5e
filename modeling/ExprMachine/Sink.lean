/-!
# Sinks

Where a machine's output goes. A sink takes all bytes, or only a given number of them: then it
accepts what still fits of a write and refuses the rest.

* `Sink.write` — the sink after a write, and whether it took all of it.
-/

namespace ExprMachine

/-- The bytes taken so far, and how many more there is room for; without end if `none`. -/
structure Sink where
  written : Array UInt8 := #[]
  room : Option Nat := none
  deriving DecidableEq, Repr, Inhabited

namespace Sink

/-- Write bytes. -/
def write (sink : Sink) (bytes : List UInt8) : Sink × Bool :=
  match sink.room with
  | none => ({ sink with written := sink.written ++ bytes }, true)
  | some n =>
    ({ written := sink.written ++ bytes.take n, room := some (n - bytes.length) },
      bytes.length ≤ n)

theorem write_of_unlimited {sink : Sink} (h : sink.room = none) (bytes : List UInt8) :
    sink.write bytes = ({ sink with written := sink.written ++ bytes }, true) := by
  simp [write, h]

theorem written_write (sink : Sink) (bytes : List UInt8) :
    ∃ taken, taken <+: bytes ∧ (sink.write bytes).1.written = sink.written ++ taken := by
  unfold write
  split
  · exact ⟨bytes, List.prefix_rfl, rfl⟩
  · exact ⟨_, List.take_prefix _ _, rfl⟩

end Sink

end ExprMachine
