import ExprMachine.Machine.Run
import ExprMachine.Proofs.Contents

/-!
# What an instruction can do

Every instruction but the last one pops a fixed number of values and pushes one. This module says
once how that can end; what follows about runs needs no look at single instructions.

* `OpCode.pops`, `OpCode.kindFault?` — what an instruction takes, and its complaint about wrong
  kinds;
* `BinaryOp.code_cases` — the instructions of an operator;
* `Machine.Follows` — a machine after instructions that printed and reported nothing;
* `Machine.Replaces` — the four ways in which an instruction can end;
* `execute_replaces`, `pushConstant_replaces` — the instructions end in one of these ways;
* `execute_halt` — the last instruction prints.
-/

namespace ExprMachine

/-- How many values an instruction pops. -/
def OpCode.pops : OpCode → Nat
  | constant | pushNil | pushTrue | pushFalse => 0
  | not | negate | halt => 1
  | equal | greater | less | add | subtract | multiply | divide => 2

/-- The fault of an instruction whose operands are of a wrong kind. -/
def OpCode.kindFault? : OpCode → Option Fault
  | negate => some .operandNotNumber
  | add => some .operandsNotAddable
  | greater | less | subtract | multiply | divide => some .operandsNotNumbers
  | _ => none

/-- Only the three faults of kind are no defects. -/
theorem OpCode.isDefect_of_kindFault? {op : OpCode} {fault : Fault}
    (h : op.kindFault? = some fault) : fault.isDefect = false := by
  cases op <;> cases h <;> rfl

/-- An operator is one instruction that takes two values, or that and a negation. -/
theorem BinaryOp.code_cases (op : BinaryOp) :
    ∃ code : OpCode, code.pops = 2 ∧ (op.code = [code] ∨ op.code = [code, .not]) := by
  cases op with
  | notEqual => exact ⟨.equal, rfl, .inr rfl⟩
  | equal => exact ⟨.equal, rfl, .inl rfl⟩
  | greater => exact ⟨.greater, rfl, .inl rfl⟩
  | greaterEqual => exact ⟨.less, rfl, .inr rfl⟩
  | less => exact ⟨.less, rfl, .inl rfl⟩
  | lessEqual => exact ⟨.greater, rfl, .inr rfl⟩
  | add => exact ⟨.add, rfl, .inl rfl⟩
  | subtract => exact ⟨.subtract, rfl, .inl rfl⟩
  | multiply => exact ⟨.multiply, rfl, .inl rfl⟩
  | divide => exact ⟨.divide, rfl, .inl rfl⟩

/-! ### Journals -/

/-- Only a report adds to the reported text. -/
theorem Journal.reports_push_of_ne (journal : Journal) {entry : Entry}
    (h : ∀ text, entry ≠ .report text) :
    Journal.reports (journal.push entry) = journal.reports := by
  cases entry with
  | report text => exact absurd rfl (h text)
  | _ => simp [reports]

theorem Journal.reports_push_event (journal : Journal) (e : Event) :
    Journal.reports (journal.push (.event e)) = journal.reports :=
  journal.reports_push_of_ne nofun

namespace Machine

/-! ### Machines in the course of a run -/

/-- A machine after instructions that printed and reported nothing. -/
structure Follows (m m' : Machine) : Prop where
  options_eq : m'.options = m.options
  output_eq : m'.output = m.output
  reports_eq : m'.journal.reports = m.journal.reports
  heap_extends : m.heap.Extends m'.heap

theorem Follows.refl (m : Machine) : m.Follows m := ⟨rfl, rfl, rfl, .refl m.heap⟩

theorem Follows.trans {a b c : Machine} (h : a.Follows b) (h' : b.Follows c) : a.Follows c :=
  ⟨h'.options_eq.trans h.options_eq, h'.output_eq.trans h.output_eq,
    h'.reports_eq.trans h.reports_eq, h.heap_extends.trans h'.heap_extends⟩

theorem follows_stack (m : Machine) (stack : List Value) : m.Follows { m with stack } :=
  ⟨rfl, rfl, rfl, .refl m.heap⟩

theorem follows_heap (m : Machine) {heap : Heap} (h : m.heap.Extends heap) (stack : List Value) :
    m.Follows { m with stack, heap } :=
  ⟨rfl, rfl, rfl, h⟩

theorem follows_note (m : Machine) (entry : Entry) (h : ∀ text, entry ≠ .report text) :
    m.Follows (m.note entry) :=
  ⟨rfl, rfl, m.journal.reports_push_of_ne h, .refl m.heap⟩

theorem follows_event (m : Machine) (e : Event) : m.Follows (m.note (.event e)) :=
  m.follows_note _ nofun

theorem follows_trace (m : Machine) (chunk : Chunk) (offset : Nat) :
    m.Follows (m.trace chunk offset) := by
  unfold trace
  split
  · exact m.follows_event _
  · exact .refl m

@[simp]
theorem stack_trace (m : Machine) (chunk : Chunk) (offset : Nat) :
    (m.trace chunk offset).stack = m.stack := by
  unfold trace
  split <;> rfl

@[simp]
theorem options_trace (m : Machine) (chunk : Chunk) (offset : Nat) :
    (m.trace chunk offset).options = m.options := (m.follows_trace chunk offset).options_eq

@[simp]
theorem output_trace (m : Machine) (chunk : Chunk) (offset : Nat) :
    (m.trace chunk offset).output = m.output := (m.follows_trace chunk offset).output_eq

@[simp]
theorem heap_trace (m : Machine) (chunk : Chunk) (offset : Nat) :
    (m.trace chunk offset).heap = m.heap := by
  unfold trace
  split <;> rfl

/-! ### The ways to end -/

/-- How an instruction that pops `count` values and pushes one can end. -/
inductive Replaces (m : Machine) (count : Nat) (kind? : Option Fault) : Outcome → Prop
  | underflow {m' : Machine} :
      m.Follows m' → m.stack.length < count → Replaces m count kind? (m', some .stackUnderflow)
  | refused {m' : Machine} {fault : Fault} :
      m.Follows m' → count ≤ m.stack.length → kind? = some fault →
      Replaces m count kind? (m', some fault)
  | overflow {m' : Machine} :
      m.Follows m' → count ≤ m.stack.length →
      m.options.stackLimit ≤ m.stack.length - count →
      Replaces m count kind? (m', some .stackOverflow)
  | done {m' : Machine} :
      m.Follows m' → count ≤ m.stack.length →
      m.stack.length - count < m.options.stackLimit →
      m'.stack.length = m.stack.length - count + 1 → Replaces m count kind? (m', none)

theorem push_replaces {m m' : Machine} {count : Nat} {kind? : Option Fault} (v : Value)
    (hfollows : m.Follows m') (hcount : count ≤ m.stack.length)
    (hlength : m'.stack.length = m.stack.length - count) :
    m.Replaces count kind? (m'.push v) := by
  have hlimit := congrArg MachineOptions.stackLimit hfollows.options_eq
  unfold push
  split
  · exact .overflow hfollows hcount (by omega)
  · exact .done (hfollows.trans (m'.follows_stack _)) hcount (by omega)
      (by rw [List.length_cons, hlength])

/-! ### Instructions -/

theorem binary_replaces (m : Machine)
    {f : Heap → Value → Value → Except Fault (Value × Heap)} {kind? : Option Fault}
    (hok : ∀ left right v heap, f m.heap left right = .ok (v, heap) → m.heap.Extends heap)
    (herror : ∀ left right fault, f m.heap left right = .error fault → kind? = some fault) :
    m.Replaces 2 kind? (m.binary f) := by
  unfold binary
  split
  · rename_i right left stack hstack
    have hlength : m.stack.length = stack.length + 2 := by rw [hstack]; rfl
    split
    · rename_i v heap hf
      exact push_replaces v (m.follows_heap (hok left right v heap hf) stack) (by omega)
        (by rw [hlength, Nat.add_sub_cancel])
    · rename_i fault hf
      exact .refused (m.follows_stack stack) (by omega) (herror left right fault hf)
  · rename_i hstack
    refine .underflow (m.follows_stack []) ?_
    match hm : m.stack with
    | [] => exact Nat.two_pos
    | [_] => exact Nat.one_lt_two
    | right :: left :: stack => exact absurd hm (hstack right left stack)

theorem unary_replaces (m : Machine) {f : Value → Except Fault Value} {kind? : Option Fault}
    (herror : ∀ v fault, f v = .error fault → kind? = some fault) :
    m.Replaces 1 kind? (m.unary f) := by
  unfold unary
  split
  · rename_i operand stack hstack
    have hlength : m.stack.length = stack.length + 1 := by rw [hstack]; rfl
    split
    · rename_i v hf
      exact push_replaces v (m.follows_stack stack) (by omega)
        (by rw [hlength, Nat.add_sub_cancel])
    · rename_i fault hf
      exact .refused (m.follows_stack stack) (by omega) (herror operand fault hf)
  · rename_i hstack
    exact .underflow (.refl m) (by rw [hstack]; exact Nat.one_pos)

theorem extends_of_numeric {g : Binary64 → Binary64 → Value} {heap heap' : Heap}
    {left right v : Value} (h : numeric g heap left right = .ok (v, heap')) :
    heap.Extends heap' := by
  unfold numeric at h
  split at h <;> cases h
  exact .refl heap

theorem fault_of_numeric {g : Binary64 → Binary64 → Value} {heap : Heap} {left right : Value}
    {fault : Fault} (h : numeric g heap left right = .error fault) :
    some .operandsNotNumbers = some fault := by
  unfold numeric at h
  split at h <;> cases h
  rfl

theorem numeric_replaces (m : Machine) (g : Binary64 → Binary64 → Value) :
    m.Replaces 2 (some .operandsNotNumbers) (m.binary (numeric g)) :=
  m.binary_replaces (fun _ _ _ _ => extends_of_numeric) fun _ _ _ => fault_of_numeric

theorem extends_of_addValues {heap heap' : Heap} {left right v : Value}
    (h : addValues heap left right = .ok (v, heap')) : heap.Extends heap' := by
  unfold addValues at h
  split at h
  · cases h
    exact .refl heap
  · split at h
    · cases h
      exact heap.extends_alloc _
    · cases h
  · cases h

theorem fault_of_addValues {heap : Heap} {left right : Value} {fault : Fault}
    (h : addValues heap left right = .error fault) : some .operandsNotAddable = some fault := by
  unfold addValues at h
  split at h
  · cases h
  · split at h <;> cases h
    rfl
  · cases h
    rfl

theorem fault_of_negateValue {v : Value} {fault : Fault} (h : negateValue v = .error fault) :
    some .operandNotNumber = some fault := by
  unfold negateValue at h
  split at h <;> cases h
  rfl

/-- **Every instruction but the last replaces values by one.** -/
theorem execute_replaces (m : Machine) {op : OpCode} (hconstant : op ≠ .constant)
    (hhalt : op ≠ .halt) : m.Replaces op.pops op.kindFault? (m.execute op) := by
  have hpush (v : Value) : m.Replaces 0 none (m.push v) :=
    push_replaces v (.refl m) (Nat.zero_le _) rfl
  cases op with
  | constant => exact absurd rfl hconstant
  | halt => exact absurd rfl hhalt
  | pushNil => exact hpush .nil
  | pushTrue => exact hpush (.bool true)
  | pushFalse => exact hpush (.bool false)
  | equal =>
    refine m.binary_replaces (f := equalValues) (fun left right v heap h => ?_)
      fun left right fault h => ?_
    · cases h
      exact .refl m.heap
    · cases h
  | add =>
    exact m.binary_replaces (fun _ _ _ _ => extends_of_addValues) fun _ _ _ => fault_of_addValues
  | greater => exact m.numeric_replaces _
  | less => exact m.numeric_replaces _
  | subtract => exact m.numeric_replaces _
  | multiply => exact m.numeric_replaces _
  | divide => exact m.numeric_replaces _
  | not => exact m.unary_replaces (f := notValue) fun v fault h => by cases h
  | negate => exact m.unary_replaces fun _ _ => fault_of_negateValue

/-! ### Constants -/

/-- What is wrong with the constant at an index, as far as a heap can tell. -/
def constantFault? (chunk : Chunk) (heap : Heap) (index : UInt8) : Option Fault :=
  match chunk.constants[index.toNat]? with
  | none => some (.invalidConstant index)
  | some (.object h) =>
    if heap.owns h || chunk.objects.owns h then none else some (.foreignConstant index)
  | some _ => none

theorem pushConstant_of_fault {m : Machine} {chunk : Chunk} {index : UInt8} {fault : Fault}
    (h : constantFault? chunk m.heap index = some fault) :
    m.pushConstant chunk index = (m, some fault) := by
  unfold constantFault? at h
  unfold pushConstant
  split at h
  · rename_i hnone
    cases h
    rw [hnone]
  · rename_i handle hsome
    split at h
    · cases h
    · rename_i howns
      cases h
      rw [Bool.or_eq_true, not_or, Bool.not_eq_true, Bool.not_eq_true] at howns
      rw [Heap.owns_eq_isSome_get? chunk.objects, Option.isSome_eq_false_iff,
        Option.isNone_iff_eq_none] at howns
      simp only [hsome, importValue, howns.1, howns.2]
      rfl
  · cases h

/-- A good constant is pushed if there is room. -/
theorem pushConstant_replaces {m : Machine} {chunk : Chunk} {index : UInt8}
    (h : constantFault? chunk m.heap index = none) :
    m.Replaces 0 none (m.pushConstant chunk index) := by
  have hpush (v : Value) {heap : Heap} (hheap : m.heap.Extends heap) :
      m.Replaces 0 none (push { m with heap } v) :=
    push_replaces v (m.follows_heap hheap m.stack) (Nat.zero_le _) rfl
  unfold constantFault? at h
  unfold pushConstant
  split at h
  · cases h
  · rename_i handle hsome
    simp only [hsome, importValue]
    by_cases howned : m.heap.owns handle = true
    · simp only [howned, if_true]
      exact hpush _ (.refl m.heap)
    · rw [if_neg howned]
      cases hget : chunk.objects.get? handle with
      | some bytes => exact hpush _ (m.heap.extends_alloc bytes)
      | none =>
        rw [Heap.owns_eq_isSome_get? chunk.objects, hget] at h
        simp [howned] at h
  · rename_i v hvalue hsome
    simp only [hsome]
    cases v with
    | object handle => exact absurd rfl (hvalue handle)
    | nil => exact hpush _ (.refl m.heap)
    | bool b => exact hpush _ (.refl m.heap)
    | number x => exact hpush _ (.refl m.heap)

/-! ### The last instruction -/

/-- The last instruction prints the value on top and leaves the others. -/
theorem execute_halt {m : Machine} {v : Value} {stack : List Value} (hstack : m.stack = v :: stack)
    (hroom : m.output.room = none) :
    m.execute .halt =
      ({ m with stack, output := { m.output with
          written := m.output.written ++ (m.heap.written v ++ [lineFeed]) } }, none) := by
  simp only [execute, printTop, hstack, Sink.write_of_unlimited hroom, if_true]

end Machine

end ExprMachine
