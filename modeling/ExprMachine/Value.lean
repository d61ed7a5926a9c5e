import ExprMachine.Number.Binary64

/-!
# Values

The data that programs compute with, and the handles by which they name strings.

* `HeapId`, `Handle` — a heap's identity, and a place in a heap with that identity;
* `Value` — nil, a truth value, a number or the handle of an object;
* `Value.isFalsey` — the two values that count as false;
* `Value.identical` — equality without looking behind handles;
* `Value.asBool`, `Value.asNumber`, `Value.asObject` — a value of an expected kind.
-/

namespace ExprMachine

/-- The identity of a heap. -/
@[ext]
structure HeapId where
  number : Nat
  deriving DecidableEq, Repr, Inhabited

/-- Another identity. -/
def HeapId.next (id : HeapId) : HeapId := ⟨id.number + 1⟩

theorem HeapId.next_ne (id : HeapId) : id.next ≠ id := by
  simp [HeapId.next, HeapId.ext_iff]

/-- A place in the heap that issued the handle, or in a copy of it. -/
structure Handle where
  heap : HeapId
  slot : Nat
  deriving DecidableEq, Repr, Inhabited

/-- A value of the language. -/
inductive Value where
  | nil
  | bool (b : Bool)
  | number (x : Binary64)
  | object (h : Handle)
  deriving DecidableEq, Repr, Inhabited

namespace Value

/-! ### Kinds -/

/-- The kinds of values. -/
inductive Kind where
  | nil
  | bool
  | number
  | object
  deriving DecidableEq, Repr

/-- The word for a kind. -/
def Kind.word : Kind → String
  | nil => "nil"
  | bool => "bool"
  | number => "number"
  | object => "object"

/-- The kind of a value. -/
def kind : Value → Kind
  | nil => .nil
  | bool _ => .bool
  | number _ => .number
  | object _ => .object

/-- Only nil and false count as false. -/
def isFalsey : Value → Bool
  | nil => true
  | bool b => !b
  | _ => false

/-- Equality by content for scalars, numbers as IEEE has it, and by place for handles. -/
def identical : Value → Value → Bool
  | nil, nil => true
  | bool a, bool b => a == b
  | number x, number y => x.equal y
  | object h, object k => h == k
  | _, _ => false

/-! ### Access -/

/-- Why a value is not what was asked for. -/
inductive AccessError where
  | kind (wanted found : Kind)
  | foreign
  deriving DecidableEq, Repr

/-- The wording of an access error. -/
def AccessError.message : AccessError → String
  | kind .object found => "as_obj on " ++ found.word
  | kind wanted found => "as_" ++ wanted.word ++ " on " ++ found.word
  | foreign => "as_string on a handle from another heap"

/-- The truth value of a boolean. -/
def asBool : Value → Except AccessError Bool
  | bool b => .ok b
  | v => .error (.kind .bool v.kind)

/-- The number of a number. -/
def asNumber : Value → Except AccessError Binary64
  | number x => .ok x
  | v => .error (.kind .number v.kind)

/-- The handle of an object. -/
def asObject : Value → Except AccessError Handle
  | object h => .ok h
  | v => .error (.kind .object v.kind)

end Value

end ExprMachine
