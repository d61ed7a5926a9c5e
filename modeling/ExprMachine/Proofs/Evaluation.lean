import ExprMachine.Expr.Code
import ExprMachine.Proofs.Instruction

/-!
# Evaluation

What an expression means, with no machine: literals are combined, left operand before right operand
before operator. Then what single instructions do to values that stand for literals.

* `UnaryOp.apply`, `BinaryOp.apply` — the operators on literals;
* `Expr.eval` — the value of a tree, or the first fault with the line it is attributed to;
* `Literal.written` — the bytes that print a literal;
* `Machine.Yields` — an instruction has pushed a value for a literal, or failed with a fault;
* `pushConstant_yields` and its companions — the instructions do what the operators say.
-/

namespace ExprMachine

/-! ### Operators on literals -/

namespace Literal

/-- Only nil and false count as false. -/
def isFalsey : Literal → Bool
  | nil => true
  | bool b => !b
  | _ => false

/-- Equality by kind and content: numbers as IEEE has it, strings by their bytes. -/
def same : Literal → Literal → Bool
  | nil, nil => true
  | bool a, bool b => a == b
  | number x, number y => x.equal y
  | string s, string t => s == t
  | _, _ => false

/-- Whether a literal counts as false, as a literal. -/
def negation (x : Literal) : Literal := bool x.isFalsey

/-- An operation on two numbers. -/
def numeric (f : Binary64 → Binary64 → Literal) : Literal → Literal → Except Fault Literal
  | number x, number y => .ok (f x y)
  | _, _ => .error .operandsNotNumbers

/-- The sum of two numbers, or one string after the other. -/
def plus : Literal → Literal → Except Fault Literal
  | number x, number y => .ok (number (x.add y))
  | string s, string t => .ok (string (s ++ t))
  | _, _ => .error .operandsNotAddable

/-- The bytes that print a literal: those of a string as they are, and its text for any other. -/
def written : Literal → List UInt8
  | nil => Text.Utf8.encode "nil".toList
  | bool b => Text.Utf8.encode (if b then "true" else "false").toList
  | number x => Text.Utf8.encode x.toText
  | string bytes => bytes

end Literal

/-- An operator applied to its operand. -/
def UnaryOp.apply : UnaryOp → Literal → Except Fault Literal
  | negate, .number x => .ok (.number x.neg)
  | negate, _ => .error .operandNotNumber
  | not, x => .ok x.negation

/-- An operator applied to its operands. What is not less need not be greater or equal: with a NaN,
`>=` and `<=` hold, as negations of `<` and `>`. -/
def BinaryOp.apply (op : BinaryOp) (left right : Literal) : Except Fault Literal :=
  match op with
  | equal => .ok (.bool (left.same right))
  | notEqual => .ok (.bool !left.same right)
  | greater => Literal.numeric (fun x y => .bool (y.less x)) left right
  | greaterEqual => Literal.numeric (fun x y => .bool !x.less y) left right
  | less => Literal.numeric (fun x y => .bool (x.less y)) left right
  | lessEqual => Literal.numeric (fun x y => .bool !y.less x) left right
  | add => left.plus right
  | subtract => Literal.numeric (fun x y => .number (x.sub y)) left right
  | multiply => Literal.numeric (fun x y => .number (x.mul y)) left right
  | divide => Literal.numeric (fun x y => .number (x.div y)) left right

/-- The value of a tree. A fault of an operator has the line on which its last operand ends. -/
def Expr.eval : Expr → Except (Fault × Nat) Literal
  | literal value _ => .ok value
  | group inner _ => inner.eval
  | unary op operand => do
    let x ← operand.eval
    (op.apply x).mapError (·, operand.lastLine)
  | binary op left right => do
    let x ← left.eval
    let y ← right.eval
    (op.apply x y).mapError (·, right.lastLine)

/-! ### Values that stand for literals -/

namespace Heap

variable {heap : Heap} {v w : Value} {x y : Literal}

theorem written_of_literal? (hv : heap.literal? v = some x) : heap.written v = x.written := by
  cases means_of_literal? hv with
  | nil | bool b => rfl
  | number z => simp only [written, display, String.toList_ofList, Literal.written]
  | string hs => simp only [written, hs, Literal.written]

theorem isFalsey_of_literal? (hv : heap.literal? v = some x) : v.isFalsey = x.isFalsey := by
  cases means_of_literal? hv <;> rfl

/-- Equal handles name the same string, so comparing handles first changes nothing. -/
theorem valuesEqual_of_literal? (hv : heap.literal? v = some x) (hw : heap.literal? w = some y) :
    heap.valuesEqual v w = x.same y := by
  cases means_of_literal? hv with
  | nil | bool b | number z => cases means_of_literal? hw <;> rfl
  | @string h s hs =>
    cases means_of_literal? hw with
    | nil | bool b | number z => rfl
    | @string k t ht =>
      simp only [valuesEqual, hs, ht, Literal.same]
      by_cases hhandle : h = k
      · subst hhandle
        cases hs.symm.trans ht
        simp
      · simp [hhandle]

end Heap

/-! ### Instructions -/

namespace Machine

/-- What an operation on values makes is what an operation on literals makes. -/
inductive Computes (heap : Heap) :
    Except Fault Literal → Except Fault (Value × Heap) → Prop
  | value {heap' : Heap} {u : Value} {z : Literal} :
      heap.Extends heap' → heap'.literal? u = some z → Computes heap (.ok z) (.ok (u, heap'))
  | fault (fault : Fault) : Computes heap (.error fault) (.error fault)

/-- An instruction has pushed a value for a literal on a stack, or failed. -/
inductive Yields (m : Machine) (stack : List Value) : Except Fault Literal → Outcome → Prop
  | value {m' : Machine} {u : Value} {z : Literal} :
      m.Follows m' → m'.stack = u :: stack → m'.heap.literal? u = some z →
      Yields m stack (.ok z) (m', none)
  | fault {m' : Machine} {fault : Fault} :
      m.Follows m' → Yields m stack (.error fault) (m', some fault)

variable {m : Machine} {stack : List Value} {v w : Value} {x y : Literal}

theorem push_yields {m' : Machine} (hfollows : m.Follows m') (hstack : m'.stack = stack)
    (hroom : stack.length < m.options.stackLimit) (hv : m'.heap.literal? v = some x) :
    m.Yields stack (.ok x) (m'.push v) := by
  subst hstack
  rw [← hfollows.options_eq] at hroom
  rw [push, if_neg (Nat.not_le.2 hroom)]
  exact .value (hfollows.trans (m'.follows_stack _)) rfl hv

theorem binary_yields {f : Heap → Value → Value → Except Fault (Value × Heap)}
    {result : Except Fault Literal} (hstack : m.stack = w :: v :: stack)
    (hroom : stack.length < m.options.stackLimit) (h : Computes m.heap result (f m.heap v w)) :
    m.Yields stack result (m.binary f) := by
  simp only [binary, hstack]
  cases hf : f m.heap v w with
  | ok made =>
    obtain ⟨u, heap⟩ := made
    rw [hf] at h
    cases h with
    | value hheap hu => exact push_yields (m.follows_heap hheap stack) rfl hroom hu
  | error fault =>
    rw [hf] at h
    cases h
    exact .fault (m.follows_stack stack)

theorem unary_yields {f : Value → Except Fault Value} {result : Except Fault Literal}
    (hstack : m.stack = v :: stack) (hroom : stack.length < m.options.stackLimit)
    (h : Computes m.heap result ((f v).map (·, m.heap))) : m.Yields stack result (m.unary f) := by
  simp only [unary, hstack]
  cases hf : f v with
  | ok u =>
    rw [hf] at h
    cases h with
    | value hheap hu => exact push_yields (m.follows_stack stack) rfl hroom hu
  | error fault =>
    rw [hf] at h
    cases h
    exact .fault (m.follows_stack stack)

section Operands

variable (hv : m.heap.literal? v = some x) (hw : m.heap.literal? w = some y)

include hv hw

theorem equalValues_computes :
    Computes m.heap (.ok (.bool (x.same y))) (equalValues m.heap v w) := by
  rw [← Heap.valuesEqual_of_literal? hv hw]
  exact .value (.refl m.heap) rfl

theorem numeric_computes {f : Binary64 → Binary64 → Value} {g : Binary64 → Binary64 → Literal}
    (hfg : ∀ a b, m.heap.literal? (f a b) = some (g a b)) :
    Computes m.heap (Literal.numeric g x y) (numeric f m.heap v w) := by
  cases Heap.means_of_literal? hv with
  | nil | bool b | string hs => exact .fault _
  | number a =>
    cases Heap.means_of_literal? hw with
    | nil | bool b | string ht => exact .fault _
    | number b => exact .value (.refl m.heap) (hfg a b)

theorem addValues_computes : Computes m.heap (x.plus y) (addValues m.heap v w) := by
  cases Heap.means_of_literal? hv with
  | nil | bool b => exact .fault _
  | number a =>
    cases Heap.means_of_literal? hw with
    | nil | bool b | string ht => exact .fault _
    | number b => exact .value (.refl m.heap) rfl
  | string hs =>
    cases Heap.means_of_literal? hw with
    | nil | bool b | number z => exact .fault _
    | string ht =>
      simp only [addValues, hs, ht]
      exact .value (m.heap.extends_alloc _) (m.heap.literal?_alloc _)

/-- The first instruction of an operator has the operator's result, or one that another instruction
negates. -/
theorem execute_binary_yields (op : BinaryOp) (hstack : m.stack = w :: v :: stack)
    (hroom : stack.length < m.options.stackLimit) :
    ∃ code result, code.pops = 2 ∧ m.Yields stack result (m.execute code) ∧
      (op.code = [code] ∧ op.apply x y = result ∨
        op.code = [code, .not] ∧ op.apply x y = result.map Literal.negation) := by
  have hequal := binary_yields hstack hroom (equalValues_computes hv hw)
  have hadd := binary_yields hstack hroom (addValues_computes hv hw)
  have hnumeric {f : Binary64 → Binary64 → Value} {g : Binary64 → Binary64 → Literal}
      (hfg : ∀ a b, m.heap.literal? (f a b) = some (g a b)) :=
    binary_yields hstack hroom (numeric_computes hv hw hfg)
  have hnegated {f : Binary64 → Binary64 → Bool} :
      Literal.numeric (fun a b => .bool !f a b) x y =
        (Literal.numeric (fun a b => .bool (f a b)) x y).map Literal.negation := by
    unfold Literal.numeric
    split <;> rfl
  cases op with
  | equal => exact ⟨.equal, _, rfl, hequal, .inl ⟨rfl, rfl⟩⟩
  | notEqual => exact ⟨.equal, _, rfl, hequal, .inr ⟨rfl, rfl⟩⟩
  | greater => exact ⟨.greater, _, rfl, hnumeric fun _ _ => rfl, .inl ⟨rfl, rfl⟩⟩
  | greaterEqual => exact ⟨.less, _, rfl, hnumeric fun _ _ => rfl, .inr ⟨rfl, hnegated⟩⟩
  | less => exact ⟨.less, _, rfl, hnumeric fun _ _ => rfl, .inl ⟨rfl, rfl⟩⟩
  | lessEqual => exact ⟨.greater, _, rfl, hnumeric fun _ _ => rfl, .inr ⟨rfl, hnegated⟩⟩
  | add => exact ⟨.add, _, rfl, hadd, .inl ⟨rfl, rfl⟩⟩
  | subtract => exact ⟨.subtract, _, rfl, hnumeric fun _ _ => rfl, .inl ⟨rfl, rfl⟩⟩
  | multiply => exact ⟨.multiply, _, rfl, hnumeric fun _ _ => rfl, .inl ⟨rfl, rfl⟩⟩
  | divide => exact ⟨.divide, _, rfl, hnumeric fun _ _ => rfl, .inl ⟨rfl, rfl⟩⟩

end Operands

theorem notValue_computes (hv : m.heap.literal? v = some x) :
    Computes m.heap (UnaryOp.not.apply x) ((notValue v).map (·, m.heap)) := by
  rw [notValue, Heap.isFalsey_of_literal? hv]
  exact .value (.refl m.heap) rfl

theorem negateValue_computes (hv : m.heap.literal? v = some x) :
    Computes m.heap (UnaryOp.negate.apply x) ((negateValue v).map (·, m.heap)) := by
  cases Heap.means_of_literal? hv with
  | nil | bool b | string hs => exact .fault _
  | number z => exact .value (.refl m.heap) rfl

theorem execute_unary_yields (op : UnaryOp) (hv : m.heap.literal? v = some x)
    (hstack : m.stack = v :: stack) (hroom : stack.length < m.options.stackLimit) :
    m.Yields stack (op.apply x) (m.execute op.code) := by
  cases op with
  | negate => exact unary_yields (f := negateValue) hstack hroom (negateValue_computes hv)
  | not => exact unary_yields (f := notValue) hstack hroom (notValue_computes hv)

/-- A constant that its chunk can explain is imported as what it is. -/
theorem importValue_computes {chunk : Chunk} (index : UInt8)
    (hv : chunk.objects.literal? v = some x) (hid : chunk.objects.id ≠ m.heap.id) :
    Computes m.heap (.ok x) (importValue chunk index m.heap v) := by
  cases Heap.means_of_literal? hv with
  | nil | bool b | number z => exact .value (.refl m.heap) rfl
  | @string h s hs =>
    have howns : m.heap.owns h = false := by simp [Heap.owns, Heap.id_of_get? hs, hid]
    simp only [importValue, howns, Bool.false_eq_true, if_false, hs]
    exact .value (m.heap.extends_alloc s) (m.heap.literal?_alloc s)

theorem pushConstant_yields {chunk : Chunk} {index : UInt8}
    (hconstant : chunk.constants[index.toNat]?.bind chunk.objects.literal? = some x)
    (hid : chunk.objects.id ≠ m.heap.id) (hroom : m.stack.length < m.options.stackLimit) :
    m.Yields m.stack (.ok x) (m.pushConstant chunk index) := by
  obtain ⟨v, hv, hx⟩ := Option.bind_eq_some_iff.1 hconstant
  have hcomputes := importValue_computes index hx hid
  simp only [pushConstant, hv]
  generalize importValue chunk index m.heap v = imported at hcomputes ⊢
  cases hcomputes with
  | value hheap hu => exact push_yields (m.follows_heap hheap m.stack) rfl hroom hu

end Machine

end ExprMachine
