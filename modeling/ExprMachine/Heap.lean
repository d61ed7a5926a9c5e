import ExprMachine.Number.Decimal
import ExprMachine.Text.Utf8
import ExprMachine.Value

/-!
# Heaps

A heap owns the strings that values point to. It only grows: a string keeps its place and its
bytes as long as the heap lives.

* `Heap.alloc` — a new string at the end of the heap, with the handle that names it;
* `Heap.get?`, `Heap.owns` — what a handle names, if this heap or one it was copied from issued
  it;
* `Heap.valuesEqual` — equality by content; a handle that names nothing here is equal to itself
  alone;
* `Heap.written` — the bytes of a value in the output;
* `Heap.display` — a value as text in messages.
-/

namespace ExprMachine

/-- Strings in the order of their allocation. A copy of a heap keeps its identity. -/
structure Heap where
  id : HeapId
  objects : Array (List UInt8) := #[]
  allocated : Nat := 0
  deriving DecidableEq, Repr, Inhabited

namespace Heap

/-- The bytes that a string takes beside its content. -/
def headerSize : Nat := 16

/-- The number of strings. -/
def size (heap : Heap) : Nat := heap.objects.size

/-- Add a string. -/
def alloc (heap : Heap) (bytes : List UInt8) : Handle × Heap :=
  (⟨heap.id, heap.size⟩,
    { heap with
      objects := heap.objects.push bytes
      allocated := heap.allocated + (headerSize + bytes.length) })

/-- The string that a handle names. -/
def get? (heap : Heap) (h : Handle) : Option (List UInt8) :=
  if h.heap = heap.id then heap.objects[h.slot]? else none

/-- Whether a handle names a string of this heap. -/
def owns (heap : Heap) (h : Handle) : Bool := h.heap = heap.id && h.slot < heap.size

theorem owns_eq_isSome_get? (heap : Heap) (h : Handle) : heap.owns h = (heap.get? h).isSome := by
  by_cases hid : h.heap = heap.id
  · by_cases hlt : h.slot < heap.objects.size <;> simp [owns, get?, size, hid, hlt]
  · simp [owns, get?, hid]

@[simp]
theorem alloc_id (heap : Heap) (bytes : List UInt8) : (heap.alloc bytes).2.id = heap.id := rfl

theorem get?_alloc_self (heap : Heap) (bytes : List UInt8) :
    (heap.alloc bytes).2.get? (heap.alloc bytes).1 = some bytes := by
  simp [alloc, get?, size]

/-! ### Values -/

/-- Whether a value is a string of this heap. -/
def isString (heap : Heap) : Value → Bool
  | .object h => (heap.get? h).isSome
  | _ => false

/-- The bytes of a string of this heap. -/
def asString (heap : Heap) (v : Value) : Except Value.AccessError (List UInt8) := do
  match heap.get? (← v.asObject) with
  | some bytes => .ok bytes
  | none => .error .foreign

/-- Equality of values: by content within a kind, strings by their bytes. -/
def valuesEqual (heap : Heap) : Value → Value → Bool
  | .object h, .object k =>
    h == k || match heap.get? h, heap.get? k with
      | some s, some t => s == t
      | _, _ => false
  | v, w => v.identical w

/-! ### Text -/

/-- A handle that names nothing, as text. -/
def foreignText (h : Handle) : String := s!"<foreign object #{h.slot}>"

/-- A value as text, the bytes of a string read as UTF-8 as far as they are. -/
def display (heap : Heap) : Value → String
  | .nil => "nil"
  | .bool b => if b then "true" else "false"
  | .number x => String.ofList x.toText
  | .object h => match heap.get? h with
    | some bytes => String.ofList (Text.Utf8.decodeLossy bytes)
    | none => foreignText h

/-- The bytes that print a value: those of a string as they are, and its text for any other. -/
def written (heap : Heap) : Value → List UInt8
  | .object h => match heap.get? h with
    | some bytes => bytes
    | none => Text.Utf8.encode (foreignText h).toList
  | v => Text.Utf8.encode (heap.display v).toList

end Heap

end ExprMachine
