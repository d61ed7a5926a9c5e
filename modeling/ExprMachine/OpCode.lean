/-!
# Instructions

The one-byte instructions of the machine.

* `OpCode.toByte`, `OpCode.ofByte?` — the encoding, and `ofByte?_toByte` its inverse;
* `OpCode.mnemonic`, `OpCode.ofMnemonic?` — the names in listings and assembly;
* `OpCode.operandWidth` — the bytes that follow an instruction.
-/

namespace ExprMachine

/-- An instruction. Operands are popped with the right one on top. -/
inductive OpCode where
  /-- Push the constant whose index is in the next byte. -/
  | constant
  | pushNil
  | pushTrue
  | pushFalse
  | equal
  | greater
  | less
  | add
  | subtract
  | multiply
  | divide
  | not
  | negate
  /-- Pop a value, print it and end the run. -/
  | halt
  deriving DecidableEq, Repr, Inhabited

namespace OpCode

/-- The instructions in the order of their encoding. -/
def all : List OpCode :=
  [constant, pushNil, pushTrue, pushFalse, equal, greater, less, add, subtract, multiply, divide,
    not, negate, halt]

/-- The byte of an instruction. -/
def toByte : OpCode → UInt8
  | constant => 0
  | pushNil => 1
  | pushTrue => 2
  | pushFalse => 3
  | equal => 4
  | greater => 5
  | less => 6
  | add => 7
  | subtract => 8
  | multiply => 9
  | divide => 10
  | not => 11
  | negate => 12
  | halt => 13

/-- The instruction that a byte encodes, if it encodes one. -/
def ofByte? (b : UInt8) : Option OpCode := all[b.toNat]?

theorem ofByte?_toByte (op : OpCode) : ofByte? op.toByte = some op := by
  cases op <;> rfl

theorem ofByte?_eq_none_iff (b : UInt8) : ofByte? b = none ↔ 14 ≤ b.toNat := by
  simp [ofByte?, all]

/-- The bytes of operand after an instruction. -/
def operandWidth : OpCode → Nat
  | constant => 1
  | _ => 0

/-- The name of an instruction without the tag that all share. -/
def bareName : OpCode → String
  | constant => "CONSTANT"
  | pushNil => "NIL"
  | pushTrue => "TRUE"
  | pushFalse => "FALSE"
  | equal => "EQUAL"
  | greater => "GREATER"
  | less => "LESS"
  | add => "ADD"
  | subtract => "SUBTRACT"
  | multiply => "MULTIPLY"
  | divide => "DIVIDE"
  | not => "NOT"
  | negate => "NEGATE"
  | halt => "RETURN"

/-- The name of an instruction in listings. -/
def mnemonic (op : OpCode) : String := "OP_" ++ op.bareName

/-- A name without the tag that all mnemonics share. -/
def dropTag : List Char → List Char
  | 'O' :: 'P' :: '_' :: rest => rest
  | name => name

/-- The instruction of a name, in any case of letters and with or without the tag. -/
def ofMnemonic? (name : List Char) : Option OpCode :=
  let bare := dropTag (name.map Char.toUpper)
  all.find? fun op => op.bareName.toList == bare

end OpCode

end ExprMachine
