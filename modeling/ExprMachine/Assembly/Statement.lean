import ExprMachine.Assembly.Quoted
import ExprMachine.Literal
import ExprMachine.Number.Numeral
import ExprMachine.OpCode
import ExprMachine.Text.Blank
import ExprMachine.Text.Utf8

/-!
# Assembly statements

A line of assembly holds at most one statement:

* `CONST` and a literal — a constant without an instruction;
* `BYTE` and a number — a raw byte of code;
* `CONSTANT` and `#` with a number — the instruction for a constant by its index;
* `CONSTANT` and a literal — a constant with its instruction;
* the name of any other instruction.

A number and a colon before it replace the line's own number. `readLine` reads a line, and
`Fault.message` says what is wrong with one that is not of this form.
-/

namespace ExprMachine.Assembly

/-- What a line of assembly adds to a chunk. -/
inductive Statement where
  | constant (value : Literal)
  | byte (b : UInt8)
  | op (op : OpCode)
  | pushIndex (index : UInt8)
  | pushLiteral (value : Literal)
  deriving DecidableEq, Repr

/-- What is wrong with a line. -/
inductive Fault where
  | lineNumber (text : List Char)
  | lineZero
  | unknownInstruction (text : List Char)
  | noOperandTaken (op : OpCode)
  | byteExpected (text : List Char)
  | indexExpected (text : List Char)
  | operandMissing
  | quote (e : QuoteError)
  | literal (text : List Char)
  | tooManyConstants
  | tooManyLines
  deriving DecidableEq, Repr

/-- The wording of a fault. -/
def Fault.message : Fault → String
  | lineNumber text => "invalid line number `" ++ String.ofList text ++ "`"
  | lineZero => "source lines are 1-based"
  | unknownInstruction text => "unknown instruction `" ++ String.ofList text ++ "`"
  | noOperandTaken op => op.mnemonic ++ " takes no operand"
  | byteExpected text => "BYTE expects 0-255, got `" ++ String.ofList text ++ "`"
  | indexExpected text => "constant index expects 0-255, got `" ++ String.ofList text ++ "`"
  | operandMissing => "missing operand"
  | quote .notClosed => "string literal expected"
  | quote .openEscape => "incomplete escape sequence"
  | literal text => "invalid literal `" ++ String.ofList text ++ "`"
  | tooManyConstants => "too many constants in one chunk"
  | tooManyLines => "too many lines"

/-! ### Operands -/

/-- A number from 0 to 255. -/
def byte? (s : List Char) : Option UInt8 := (Numeral.atMost? 255 s).map UInt8.ofNat

/-- The literal that an operand writes. -/
def readLiteral (s : List Char) : Except Fault Literal :=
  if s = [] then .error .operandMissing
  else if s = "nil".toList then .ok .nil
  else if s = "true".toList then .ok (.bool true)
  else if s = "false".toList then .ok (.bool false)
  else if s.head? = some '"' then
    match readQuoted s with
    | .ok chars => .ok (.string (Text.Utf8.encode chars))
    | .error e => .error (.quote e)
  else match Numeral.binary64? s with
    | some x => .ok (.number x)
    | none => .error (.literal s)

/-- The operand of a constant instruction. -/
def readConstant (s : List Char) : Except Fault Statement :=
  match s with
  | '#' :: index =>
    match byte? index with
    | some i => .ok (.pushIndex i)
    | none => .error (.indexExpected index)
  | s => (readLiteral s).map .pushLiteral

/-! ### Lines -/

/-- A statement without its line number. -/
def readStatement (s : List Char) : Except Fault Statement :=
  let (head, operand) := match Text.splitOnce Text.isBlank s with
    | some (head, rest) => (head, Text.trim rest)
    | none => (s, [])
  let name := head.map Char.toUpper
  if name = "CONST".toList then (readLiteral operand).map .constant
  else if name = "BYTE".toList then
    match byte? operand with
    | some b => .ok (.byte b)
    | none => .error (.byteExpected operand)
  else match OpCode.ofMnemonic? head with
    | none => .error (.unknownInstruction head)
    | some .constant => readConstant operand
    | some op => if operand = [] then .ok (.op op) else .error (.noOperandTaken op)

/-- The greatest line number. -/
def maxLine : Nat := 0xFFFFFFFF

/-- Split off the line number before a colon. Anything before the colon but digits is no line
number, and then the colon belongs to the statement. -/
def readLineNumber (default : Nat) (s : List Char) : Except Fault (Nat × List Char) :=
  match Text.splitOnce (· = ':') s with
  | none => .ok (default, s)
  | some (before, rest) =>
    if before = [] ∨ !(Text.trim before).all Char.isDigit then .ok (default, s)
    else match Numeral.atMost? maxLine (Text.trim before) with
      | none => .error (.lineNumber before)
      | some 0 => .error .lineZero
      | some n => .ok (n, Text.trim rest)

/-- The statement of a line and the source line it is for, if there is a statement. `default` is
the number of the line itself, which must be a line number even if another replaces it. -/
def readLine (default : Nat) (line : List Char) : Except Fault (Option (Statement × Nat)) :=
  let text := Text.trim (dropComment line)
  if text = [] then .ok none
  else if maxLine < default then .error .tooManyLines
  else do
    let (number, body) ← readLineNumber default text
    let statement ← readStatement body
    return some (statement, number)

end ExprMachine.Assembly
