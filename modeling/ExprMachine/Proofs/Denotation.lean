import Mathlib.Data.List.Forall2
import ExprMachine.Proofs.Allocation

/-!
# What instructions mean

An instruction sees of its operands only what they stand for: neither the places of strings nor what
else is in the heap. So it is a function on the literals of the stack, with the room on the stack
as its only other input; this module says so of every instruction.

* `Heap.Contents` — the literals that the values of a stack stand for;
* `OpCode.onLiterals` — an instruction that stands alone, as a function on literals;
* `Machine.Leaves` — an instruction has left a stack for given literals, or failed with a fault;
* `execute_leaves`, `pushConstant_leaves` — instructions do on the stack what they do on literals;
* `made?_eq_madeOn` — and the strings that they make are made of the same literals.
-/

namespace ExprMachine

/-! ### Stacks of literals -/

namespace Heap

/-- The literals that values stand for in a heap, one by one. -/
def Contents (heap : Heap) : List Value → List Literal → Prop :=
  List.Forall₂ fun v x => heap.literal? v = some x

theorem Contents.of_extends {heap grown : Heap} {stack : List Value} {xs : List Literal}
    (h : heap.Extends grown) (hstack : heap.Contents stack xs) : grown.Contents stack xs :=
  hstack.imp fun _ _ hv => literal?_of_extends h hv

end Heap

/-! ### Instructions on literals -/

/-- A literal is pushed if there is room. -/
def pushed (limit : Nat) (xs : List Literal) (x : Literal) : Except Fault (List Literal) :=
  if limit ≤ xs.length then .error .stackOverflow else .ok (x :: xs)

/-- The two literals on top, the right one uppermost, are replaced by what `g` makes of them. -/
def onTwo (limit : Nat) (g : Literal → Literal → Except Fault Literal) :
    List Literal → Except Fault (List Literal)
  | y :: x :: xs => g x y >>= pushed limit xs
  | _ => .error .stackUnderflow

/-- The literal on top is replaced by what `g` makes of it. -/
def onOne (limit : Nat) (g : Literal → Except Fault Literal) :
    List Literal → Except Fault (List Literal)
  | x :: xs => g x >>= pushed limit xs
  | [] => .error .stackUnderflow

/-- An instruction that stands alone, on literals with the top first. -/
def OpCode.onLiterals (limit : Nat) : OpCode → List Literal → Except Fault (List Literal)
  | constant, _ => .error .missingOperand
  | pushNil, xs => pushed limit xs .nil
  | pushTrue, xs => pushed limit xs (.bool true)
  | pushFalse, xs => pushed limit xs (.bool false)
  | equal, xs => onTwo limit (fun x y => .ok (.bool (x.same y))) xs
  | greater, xs => onTwo limit (Literal.numeric fun a b => .bool (b.less a)) xs
  | less, xs => onTwo limit (Literal.numeric fun a b => .bool (a.less b)) xs
  | add, xs => onTwo limit Literal.plus xs
  | subtract, xs => onTwo limit (Literal.numeric fun a b => .number (a.sub b)) xs
  | multiply, xs => onTwo limit (Literal.numeric fun a b => .number (a.mul b)) xs
  | divide, xs => onTwo limit (Literal.numeric fun a b => .number (a.div b)) xs
  | not, xs => onOne limit UnaryOp.not.apply xs
  | negate, xs => onOne limit UnaryOp.negate.apply xs
  | halt, [] => .error .stackUnderflow
  | halt, _ :: xs => .ok xs

/-- The instruction for a constant, on literals with the top first. -/
def constantOn (limit : Nat) (constants : List Literal) (index : UInt8) (xs : List Literal) :
    Except Fault (List Literal) :=
  match constants[index.toNat]? with
  | none => .error (.invalidConstant index)
  | some x => pushed limit xs x

/-- The string that an instruction makes of the literals on the stack and the constants of the
chunk, if the chunk's strings have to be copied. -/
def madeOn (constants : List Literal) (xs : List Literal) : Fetched → Option (List UInt8)
  | .constant index => constants[index.toNat]?.bind Literal.bytes?
  | .instruction .add =>
    match xs with
    | .string t :: .string s :: _ => some (s ++ t)
    | _ => none
  | _ => none

/-- A chunk that owns the strings among its constants has literals as constants. -/
theorem Chunk.exists_pool {chunk : Chunk}
    (h : ∀ k, .object k ∈ chunk.constants → chunk.objects.owns k = true) :
    ∃ constants, chunk.Pool constants := by
  have hall : ∀ vs : List Value, (∀ k, .object k ∈ vs → chunk.objects.owns k = true) →
      ∃ xs : List Literal, vs.map chunk.objects.literal? = xs.map some := by
    intro vs
    induction vs with
    | nil => exact fun _ => ⟨[], rfl⟩
    | cons v vs ih =>
      intro howns
      have hv : chunk.objects.Holds v := by
        intro k hk
        exact howns k (by rw [hk]; exact List.mem_cons_self)
      obtain ⟨x, hx⟩ := hv.exists_literal?
      obtain ⟨xs, hxs⟩ := ih fun k hk => howns k (List.mem_cons_of_mem v hk)
      exact ⟨x :: xs, by rw [List.map_cons, List.map_cons, hx, hxs]⟩
  exact hall chunk.constants.toList fun k hk => h k (Array.mem_toList_iff.1 hk)

namespace Machine

/-- An instruction has left a stack that stands for literals, or failed; it printed and reported
nothing. -/
inductive Leaves (m : Machine) : Except Fault (List Literal) → Outcome → Prop
  | done {m' : Machine} {xs : List Literal} :
      m.Follows m' → m'.heap.Contents m'.stack xs → Leaves m (.ok xs) (m', none)
  | failed {m' : Machine} {fault : Fault} :
      m.Follows m' → Leaves m (.error fault) (m', some fault)

variable {m : Machine} {xs : List Literal}

theorem push_leaves {m' : Machine} {v : Value} {x : Literal} (hfollows : m.Follows m')
    (hstack : m'.heap.Contents m'.stack xs) (hv : m'.heap.literal? v = some x) :
    m.Leaves (pushed m.options.stackLimit xs x) (m'.push v) := by
  have hlength : m'.stack.length = xs.length := hstack.length_eq
  have hlimit := congrArg MachineOptions.stackLimit hfollows.options_eq
  unfold push pushed
  rw [hlength, hlimit]
  split
  · exact .failed hfollows
  · have hpushed : m.Follows { m' with stack := v :: m'.stack } :=
      hfollows.trans (m'.follows_stack _)
    exact .done hpushed (.cons hv hstack)

/-- An operation on values that computes one on literals does so on the stack. -/
theorem binary_leaves {f : Heap → Value → Value → Except Fault (Value × Heap)}
    {g : Literal → Literal → Except Fault Literal} (hstack : m.heap.Contents m.stack xs)
    (h : ∀ {v w x y}, m.heap.literal? v = some x → m.heap.literal? w = some y →
      Computes m.heap (g x y) (f m.heap v w)) :
    m.Leaves (onTwo m.options.stackLimit g xs) (m.binary f) := by
  unfold binary
  generalize hs : m.stack = stack at hstack
  cases hstack with
  | nil => exact .failed (m.follows_stack [])
  | @cons w y _ _ hw hbelow =>
    cases hbelow with
    | nil => exact .failed (m.follows_stack [])
    | @cons v x stack xs hv hrest =>
      have hcomputes := h hv hw
      simp only [onTwo]
      generalize f m.heap v w = made at hcomputes ⊢
      generalize g x y = result at hcomputes ⊢
      cases hcomputes with
      | value hheap hu =>
        have hrest' := Heap.Contents.of_extends hheap hrest
        exact push_leaves (m.follows_heap hheap stack) hrest' hu
      | fault fault => exact .failed (m.follows_stack stack)

theorem unary_leaves {f : Value → Except Fault Value} {g : Literal → Except Fault Literal}
    (hstack : m.heap.Contents m.stack xs)
    (h : ∀ {v x}, m.heap.literal? v = some x →
      Computes m.heap (g x) ((f v).map (·, m.heap))) :
    m.Leaves (onOne m.options.stackLimit g xs) (m.unary f) := by
  unfold unary
  generalize hs : m.stack = stack at hstack
  cases hstack with
  | nil => exact .failed (.refl m)
  | @cons v x stack xs hv hrest =>
    have hcomputes := h hv
    simp only [onOne]
    generalize g x = result at hcomputes ⊢
    cases hf : f v with
    | ok u =>
      rw [hf] at hcomputes
      cases hcomputes with
      | value _ hu => exact push_leaves (m.follows_stack stack) hrest hu
    | error fault =>
      rw [hf] at hcomputes
      cases hcomputes
      exact .failed (m.follows_stack stack)

/-- **Every instruction but the last is one on literals.** -/
theorem execute_leaves (hstack : m.heap.Contents m.stack xs) {op : OpCode} (hhalt : op ≠ .halt) :
    m.Leaves (op.onLiterals m.options.stackLimit xs) (m.execute op) := by
  have hpush {v : Value} {x : Literal} (hv : m.heap.literal? v = some x) :
      m.Leaves (pushed m.options.stackLimit xs x) (m.push v) := push_leaves (.refl m) hstack hv
  have hnumeric {f : Binary64 → Binary64 → Value} {g : Binary64 → Binary64 → Literal}
      (hfg : ∀ a b, m.heap.literal? (f a b) = some (g a b)) :
      m.Leaves (onTwo m.options.stackLimit (Literal.numeric g) xs) (m.binary (numeric f)) :=
    binary_leaves hstack fun hv hw => numeric_computes hv hw hfg
  cases op with
  | constant => exact .failed (.refl m)
  | pushNil | pushTrue | pushFalse => exact hpush rfl
  | equal => exact binary_leaves hstack equalValues_computes
  | add => exact binary_leaves hstack addValues_computes
  | greater | less | subtract | multiply | divide => exact hnumeric fun _ _ => rfl
  | not => exact unary_leaves hstack notValue_computes
  | negate => exact unary_leaves hstack negateValue_computes
  | halt => exact absurd rfl hhalt

/-! ### Constants -/

variable {chunk : Chunk} {constants : List Literal}

theorem pushConstant_leaves (hstack : m.heap.Contents m.stack xs) (hpool : chunk.Pool constants)
    (hid : chunk.objects.id ≠ m.heap.id) (index : UInt8) :
    m.Leaves (constantOn m.options.stackLimit constants index xs) (m.pushConstant chunk index) := by
  unfold constantOn pushConstant
  cases hx : constants[index.toNat]? with
  | none =>
    rw [hpool.getElem?_eq_none hx]
    exact .failed (.refl m)
  | some x =>
    obtain ⟨v, hv, hliteral⟩ := hpool.getElem?_eq_some hx
    have hcomputes := importValue_computes index hliteral hid
    rw [hv]
    simp only
    generalize importValue chunk index m.heap v = imported at hcomputes ⊢
    cases hcomputes with
    | value hheap hu =>
      have hgrown := Heap.Contents.of_extends hheap hstack
      exact push_leaves (m.follows_heap hheap m.stack) hgrown hu

/-! ### Strings -/

/-- A string among the constants is copied, as the machine cannot own it. -/
theorem copied?_eq {heap : Heap} (hpool : chunk.Pool constants) (hid : chunk.objects.id ≠ heap.id)
    (index : UInt8) : copied? chunk heap index = constants[index.toNat]?.bind Literal.bytes? := by
  unfold copied?
  cases hx : constants[index.toNat]? with
  | none =>
    rw [hpool.getElem?_eq_none hx]
    rfl
  | some x =>
    obtain ⟨v, hv, hliteral⟩ := hpool.getElem?_eq_some hx
    rw [hv]
    cases Heap.means_of_literal? hliteral with
    | nil | bool b | number z => rfl
    | @string h s hs =>
      have howns : heap.owns h = false := by simp [Heap.owns, Heap.id_of_get? hs, hid]
      simp only [howns, Bool.false_eq_true, if_false, hs]
      rfl

theorem joined?_eq (hstack : m.heap.Contents m.stack xs) :
    m.joined? = madeOn constants xs (.instruction .add) := by
  unfold joined?
  generalize m.stack = stack at hstack
  cases hstack with
  | nil => rfl
  | @cons w y _ _ hw hbelow =>
    cases hbelow with
    | nil => cases y <;> rfl
    | @cons v x _ _ hv _ =>
      simp only [hw, hv]
      cases x <;> cases y <;> rfl

/-- **The strings that are made** are made of the literals of the stack and the constants. -/
theorem made?_eq_madeOn (hstack : m.heap.Contents m.stack xs) (hpool : chunk.Pool constants)
    (hid : chunk.objects.id ≠ m.heap.id) (fetched : Fetched) :
    made? chunk m fetched = madeOn constants xs fetched := by
  cases fetched with
  | nothing | unknown byte | bare => rfl
  | constant index => exact copied?_eq hpool hid index
  | instruction op =>
    cases op with
    | add => exact joined?_eq hstack
    | _ => rfl

end Machine

end ExprMachine
