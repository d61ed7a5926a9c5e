import ExprMachine.Chunk
import ExprMachine.Journal
import ExprMachine.Machine.Fault
import ExprMachine.Sink

/-!
# Machines and their steps

A machine is a stack of values, a heap for the strings it makes, a sink for what it prints and a
journal. Each instruction is a function on machines; when it fails, the machine is left as the
instruction had it at that moment.

* `Machine` — the state, and the options that do not change;
* `Machine.push` — a value on the stack, if there is room;
* `Machine.binary` — the two values on top replaced by one;
* `Machine.pushConstant` — a constant of a chunk, its string copied into the machine's heap;
* `Machine.execute` — every other instruction.
-/

namespace ExprMachine

/-- What is fixed when a machine is made. -/
structure MachineOptions where
  stackLimit : Nat := 256
  tracing : Bool := false
  deriving DecidableEq, Repr, Inhabited

/-- A machine. The top of the stack comes first. -/
structure Machine where
  stack : List Value := []
  heap : Heap
  output : Sink := {}
  journal : Journal := #[]
  options : MachineOptions := {}
  deriving Repr, Inhabited

namespace Machine

/-- A machine as an instruction leaves it, and the fault if there was one. -/
abbrev Outcome := Machine × Option Fault

/-- Add an entry to the journal. -/
def note (m : Machine) (entry : Entry) : Machine := { m with journal := m.journal.push entry }

/-! ### The stack -/

/-- Push a value. -/
def push (m : Machine) (v : Value) : Outcome :=
  if m.options.stackLimit ≤ m.stack.length then (m, some .stackOverflow)
  else ({ m with stack := v :: m.stack }, none)

/-- Replace the two values on top of the stack, the right operand uppermost, by what `f` makes of
them. -/
def binary (m : Machine) (f : Heap → Value → Value → Except Fault (Value × Heap)) : Outcome :=
  match m.stack with
  | right :: left :: stack =>
    match f m.heap left right with
    | .ok (v, heap) => push { m with stack, heap } v
    | .error fault => ({ m with stack }, some fault)
  | _ => ({ m with stack := [] }, some .stackUnderflow)

/-- Replace the value on top of the stack by what `f` makes of it. -/
def unary (m : Machine) (f : Value → Except Fault Value) : Outcome :=
  match m.stack with
  | operand :: stack =>
    match f operand with
    | .ok v => push { m with stack } v
    | .error fault => ({ m with stack }, some fault)
  | [] => (m, some .stackUnderflow)

/-! ### Operations on values -/

/-- Equality. -/
def equalValues (heap : Heap) (left right : Value) : Except Fault (Value × Heap) :=
  .ok (.bool (heap.valuesEqual left right), heap)

/-- An operation on two numbers. -/
def numeric (f : Binary64 → Binary64 → Value) (heap : Heap) (left right : Value) :
    Except Fault (Value × Heap) :=
  match left, right with
  | .number x, .number y => .ok (f x y, heap)
  | _, _ => .error .operandsNotNumbers

/-- The sum of two numbers, or one string after the other as a new string. -/
def addValues (heap : Heap) (left right : Value) : Except Fault (Value × Heap) :=
  match left, right with
  | .number x, .number y => .ok (.number (x.add y), heap)
  | .object h, .object k =>
    match heap.get? h, heap.get? k with
    | some s, some t =>
      let (joined, heap) := heap.alloc (s ++ t)
      .ok (.object joined, heap)
    | _, _ => .error .operandsNotAddable
  | _, _ => .error .operandsNotAddable

/-- Whether a value counts as false. -/
def notValue (v : Value) : Except Fault Value := .ok (.bool v.isFalsey)

/-- A number with the other sign. -/
def negateValue : Value → Except Fault Value
  | .number x => .ok (.number x.neg)
  | _ => .error .operandNotNumber

/-! ### Instructions -/

/-- A constant as a value of the machine: a string of the chunk is copied into the machine's heap,
unless the machine owns the handle already. -/
def importValue (chunk : Chunk) (index : UInt8) (heap : Heap) :
    Value → Except Fault (Value × Heap)
  | .object h =>
    if heap.owns h then .ok (.object h, heap)
    else match chunk.objects.get? h with
      | some bytes =>
        let (copied, heap) := heap.alloc bytes
        .ok (.object copied, heap)
      | none => .error (.foreignConstant index)
  | v => .ok (v, heap)

/-- Push the constant at an index. -/
def pushConstant (m : Machine) (chunk : Chunk) (index : UInt8) : Outcome :=
  match chunk.constants[index.toNat]? with
  | none => (m, some (.invalidConstant index))
  | some v =>
    match importValue chunk index m.heap v with
    | .ok (v, heap) => push { m with heap } v
    | .error fault => (m, some fault)

/-- The byte that ends a printed line. -/
def lineFeed : UInt8 := 10

/-- Pop a value and print it on a line of its own. -/
def printTop (m : Machine) : Outcome :=
  match m.stack with
  | [] => (m, some .stackUnderflow)
  | v :: stack =>
    let (output, complete) := m.output.write (m.heap.written v ++ [lineFeed])
    ({ m with stack, output }, if complete then none else some .outputRefused)

/-- Run an instruction that stands alone. A constant needs the index after it. -/
def execute (m : Machine) : OpCode → Outcome
  | .constant => (m, some .missingOperand)
  | .pushNil => m.push .nil
  | .pushTrue => m.push (.bool true)
  | .pushFalse => m.push (.bool false)
  | .equal => m.binary equalValues
  | .greater => m.binary (numeric fun x y => .bool (y.less x))
  | .less => m.binary (numeric fun x y => .bool (x.less y))
  | .add => m.binary addValues
  | .subtract => m.binary (numeric fun x y => .number (x.sub y))
  | .multiply => m.binary (numeric fun x y => .number (x.mul y))
  | .divide => m.binary (numeric fun x y => .number (x.div y))
  | .not => m.unary notValue
  | .negate => m.unary negateValue
  | .halt => m.printTop

end Machine

end ExprMachine
