/-!
# Runtime faults

Why a run stops before its end.

* `Fault` — the reasons, and `Fault.message` their wording;
* `Fault.isDefect` — whether the code itself is to blame: compiled expressions raise only the
  others;
* `RuntimeError` — a fault as reported, with the source line it is attributed to.
-/

namespace ExprMachine

/-- A reason to stop. -/
inductive Fault where
  | operandNotNumber
  | operandsNotNumbers
  | operandsNotAddable
  | endOfCode
  | unknownOpcode (byte : UInt8)
  | missingOperand
  | invalidConstant (index : UInt8)
  | foreignConstant (index : UInt8)
  | stackOverflow
  | stackUnderflow
  | outputRefused
  deriving DecidableEq, Repr

namespace Fault

/-- The wording of a fault. -/
def message : Fault → String
  | operandNotNumber => "Operand must be a number."
  | operandsNotNumbers => "Operands must be numbers."
  | operandsNotAddable => "Operands must be two numbers or two strings."
  | endOfCode => "Unexpected end of bytecode."
  | unknownOpcode byte => s!"Unknown opcode {byte}."
  | missingOperand => "Missing operand for OP_CONSTANT."
  | invalidConstant index => s!"Invalid constant index {index}."
  | foreignConstant index => s!"Constant {index} refers to an object of another heap."
  | stackOverflow => "Stack overflow."
  | stackUnderflow => "Stack underflow."
  | outputRefused => "Cannot write output: sink is full."

/-- Whether a fault is one of the code and not of the values it computes with. -/
def isDefect : Fault → Bool
  | operandNotNumber | operandsNotNumbers | operandsNotAddable => false
  | _ => true

end Fault

/-- A failed run. The line is unknown only where there is no code at all. -/
structure RuntimeError where
  message : String
  line : Option Nat
  deriving DecidableEq, Repr

/-- A runtime error as text. -/
def RuntimeError.render (e : RuntimeError) : String :=
  let line := match e.line with
    | some n => toString n
    | none => "?"
  e.message ++ s!"\n[line {line}] in script"

end ExprMachine
