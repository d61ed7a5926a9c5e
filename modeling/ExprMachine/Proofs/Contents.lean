import ExprMachine.Chunk
import ExprMachine.Heap
import ExprMachine.Literal

/-!
# What values are

A handle says nothing by itself; with its heap a value is a literal again. Heaps only grow, and what
a handle names stays.

* `Heap.Extends` — a heap after more allocations;
* `Heap.literal?` — what a value is in a heap; `Heap.Means` says it kind by kind;
* `Heap.literal?_of_extends` — it stays that while the heap grows;
* `Chunk.Pool` — what the constants of a chunk are.
-/

namespace ExprMachine

/-- The bytes of a string. -/
def Literal.bytes? : Literal → Option (List UInt8)
  | string bytes => some bytes
  | _ => none

namespace Heap

/-! ### Growth -/

/-- A heap after more allocations. -/
structure Extends (heap grown : Heap) : Prop where
  id_eq : grown.id = heap.id
  objects_initial : heap.objects.toList <+: grown.objects.toList

theorem Extends.refl (heap : Heap) : heap.Extends heap := ⟨rfl, List.prefix_rfl⟩

theorem Extends.trans {a b c : Heap} (h : a.Extends b) (h' : b.Extends c) : a.Extends c :=
  ⟨h'.id_eq.trans h.id_eq, h.objects_initial.trans h'.objects_initial⟩

theorem extends_alloc (heap : Heap) (bytes : List UInt8) : heap.Extends (heap.alloc bytes).2 :=
  ⟨rfl, by simp [alloc]⟩

/-- If the only constant is a string that a heap has issued last, the heap owns every handle among
the constants. -/
theorem owns_of_only_constant {heap : Heap} {bytes : List UInt8} {constants : Array Value}
    {k : Handle} (h : constants = #[.object (heap.alloc bytes).1])
    (hk : .object k ∈ constants) : (heap.alloc bytes).2.owns k = true := by
  rw [h] at hk
  cases Array.mem_singleton.1 hk
  rw [owns_eq_isSome_get?, get?_alloc_self, Option.isSome_some]

theorem get?_eq_getElem? {heap : Heap} {h : Handle} (hid : h.heap = heap.id) :
    heap.get? h = heap.objects.toList[h.slot]? := by
  rw [get?, if_pos hid, Array.getElem?_toList]

theorem id_of_get? {heap : Heap} {h : Handle} {s : List UInt8} (hs : heap.get? h = some s) :
    h.heap = heap.id := by
  unfold get? at hs
  split at hs
  · assumption
  · cases hs

theorem Extends.get? {heap grown : Heap} (h : heap.Extends grown) {handle : Handle}
    {s : List UInt8} (hs : heap.get? handle = some s) : grown.get? handle = some s := by
  have hid := id_of_get? hs
  rw [get?_eq_getElem? hid] at hs
  rw [get?_eq_getElem? (hid.trans h.id_eq.symm)]
  obtain ⟨more, hmore⟩ := h.objects_initial
  obtain ⟨hlt, -⟩ := List.getElem?_eq_some_iff.1 hs
  rw [← hmore, List.getElem?_append_left hlt, hs]

/-- A heap owns the handles that name its strings. -/
theorem owns_iff_exists_get? {heap : Heap} {h : Handle} :
    heap.owns h = true ↔ ∃ s, heap.get? h = some s := by
  rw [owns_eq_isSome_get?, Option.isSome_iff_exists]

theorem Extends.owns {heap grown : Heap} (h : heap.Extends grown) {handle : Handle}
    (howns : heap.owns handle = true) : grown.owns handle = true := by
  obtain ⟨s, hs⟩ := owns_iff_exists_get?.1 howns
  exact owns_iff_exists_get?.2 ⟨s, h.get? hs⟩

/-! ### Contents -/

/-- What a value is in a heap; nothing if it names no string there. -/
def literal? (heap : Heap) : Value → Option Literal
  | .nil => some .nil
  | .bool b => some (.bool b)
  | .number x => some (.number x)
  | .object h => (heap.get? h).map .string

/-- A value stands for a literal, kind by kind. -/
inductive Means (heap : Heap) : Value → Literal → Prop
  | nil : Means heap .nil .nil
  | bool (b : Bool) : Means heap (.bool b) (.bool b)
  | number (x : Binary64) : Means heap (.number x) (.number x)
  | string {h : Handle} {s : List UInt8} : heap.get? h = some s → Means heap (.object h) (.string s)

theorem means_of_literal? {heap : Heap} {v : Value} {x : Literal} (hv : heap.literal? v = some x) :
    heap.Means v x := by
  cases v with
  | nil =>
    cases hv
    exact .nil
  | bool b =>
    cases hv
    exact .bool b
  | number y =>
    cases hv
    exact .number y
  | object h =>
    obtain ⟨s, hs, rfl⟩ := Option.map_eq_some_iff.1 hv
    exact .string hs

theorem literal?_of_extends {heap grown : Heap} (h : heap.Extends grown) {v : Value}
    {x : Literal} (hv : heap.literal? v = some x) : grown.literal? v = some x := by
  cases means_of_literal? hv with
  | nil | bool b | number y => rfl
  | string hs => simp only [literal?, h.get? hs, Option.map_some]

theorem literal?_alloc (heap : Heap) (bytes : List UInt8) :
    (heap.alloc bytes).2.literal? (.object (heap.alloc bytes).1) = some (.string bytes) := by
  simp only [literal?, get?_alloc_self, Option.map_some]

end Heap

/-! ### Constants -/

/-- The constants of a chunk stand for literals in the chunk's own heap. -/
def Chunk.Pool (chunk : Chunk) (constants : List Literal) : Prop :=
  chunk.constants.toList.map chunk.objects.literal? = constants.map some

section Pool

variable {chunk : Chunk} {constants : List Literal} (hpool : chunk.Pool constants) {i : Nat}

include hpool

theorem Chunk.Pool.map_getElem? :
    chunk.constants[i]?.map chunk.objects.literal? = constants[i]?.map some := by
  have hi := congrArg (fun list => list[i]?) hpool
  simp only [List.getElem?_map, Array.getElem?_toList] at hi
  exact hi

theorem Chunk.Pool.getElem?_eq_none (h : constants[i]? = none) : chunk.constants[i]? = none := by
  have hi := hpool.map_getElem? (i := i)
  rw [h] at hi
  exact Option.map_eq_none_iff.1 hi

theorem Chunk.Pool.getElem?_eq_some {x : Literal} (h : constants[i]? = some x) :
    ∃ v, chunk.constants[i]? = some v ∧ chunk.objects.literal? v = some x := by
  have hi := hpool.map_getElem? (i := i)
  rw [h] at hi
  exact Option.map_eq_some_iff.1 hi

/-- The strings among the constants are the chunk's own. -/
theorem Chunk.Pool.owns {k : Handle} (h : .object k ∈ chunk.constants) :
    chunk.objects.owns k = true := by
  have hmem : chunk.objects.literal? (.object k) ∈ constants.map some := by
    rw [← hpool]
    exact List.mem_map_of_mem (Array.mem_toList_iff.2 h)
  obtain ⟨x, -, hx⟩ := List.mem_map.1 hmem
  obtain ⟨bytes, hbytes, -⟩ := Option.map_eq_some_iff.1 hx.symm
  exact Heap.owns_iff_exists_get?.2 ⟨bytes, hbytes⟩

end Pool

end ExprMachine
