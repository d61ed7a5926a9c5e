import ExprMachine.Proofs.Allocation

/-!
# Equality of values

Values are equal if equality finds the same content in them. A handle that names nothing in the heap
at hand has itself as its content, and a NaN has none, so that it differs even from itself.

* `Content`, `Heap.content?` — what equality compares;
* `Heap.valuesEqual_iff` — it compares nothing else, so that equality is symmetric and transitive;
* `Heap.content?_eq_none_iff`, `Heap.content?_eq_foreign_iff` — the values without a content, and
  the handles that name nothing;
* `Heap.content?_of_extends` — the values of a heap keep their content while it grows;
* `Heap.valuesEqual_laws` — the laws of equality, for all values and any heap.
-/

namespace ExprMachine

/-- What equality compares. The two zeros have one place among the numbers. -/
inductive Content where
  | nil
  | bool (b : Bool)
  | number (place : Int)
  | string (bytes : List UInt8)
  | foreign (h : Handle)
  deriving DecidableEq, Repr

/-- The kind of the values with a content. -/
def Content.kind : Content → Value.Kind
  | nil => .nil
  | bool _ => .bool
  | number _ => .number
  | string _ => .object
  | foreign _ => .object

namespace Heap

/-- The content of a value in a heap. -/
def content? (heap : Heap) : Value → Option Content
  | .nil => some .nil
  | .bool b => some (.bool b)
  | .number x => if x.isNaN then none else some (.number x.orderKey)
  | .object h =>
    match heap.get? h with
    | some bytes => some (.string bytes)
    | none => some (.foreign h)

variable {heap : Heap} {v w : Value} {h k : Handle}

/-! ### Contents -/

theorem content?_of_get? {bytes : List UInt8} (hbytes : heap.get? h = some bytes) :
    heap.content? (.object h) = some (.string bytes) := by
  simp only [content?, hbytes]

theorem content?_of_foreign (hnone : heap.get? h = none) :
    heap.content? (.object h) = some (.foreign h) := by
  simp only [content?, hnone]

/-- A NaN is the only value without a content. -/
theorem content?_eq_none_iff : heap.content? v = none ↔ ∃ x, v = .number x ∧ x.isNaN = true := by
  cases v with
  | nil => simp [content?]
  | bool b => simp [content?]
  | number x => simp [content?]
  | object h => cases hget : heap.get? h <;> simp [content?, hget]

/-- A handle that names nothing is the only value with its content. -/
theorem content?_eq_foreign_iff :
    heap.content? v = some (.foreign h) ↔ v = .object h ∧ heap.get? h = none := by
  cases v with
  | nil => simp [content?]
  | bool b => simp [content?]
  | number x => simp [content?]
  | object k =>
    cases hget : heap.get? k with
    | none =>
      rw [content?_of_foreign hget]
      simp only [Option.some.injEq, Content.foreign.injEq, Value.object.injEq]
      exact ⟨fun heq => ⟨heq, heq ▸ hget⟩, And.left⟩
    | some bytes =>
      rw [content?_of_get? hget]
      simp only [Option.some.injEq, reduceCtorEq, Value.object.injEq, false_iff, not_and]
      rintro rfl
      simp [hget]

theorem kind_of_content? {c : Content} (hc : heap.content? v = some c) : v.kind = c.kind := by
  cases v with
  | nil | bool b =>
    cases hc
    rfl
  | number x =>
    simp only [content?] at hc
    split at hc <;> cases hc
    rfl
  | object h =>
    simp only [content?] at hc
    split at hc <;> cases hc <;> rfl

/-- Every object has a content. -/
theorem exists_content?_object (heap : Heap) (h : Handle) :
    ∃ c, heap.content? (.object h) = some c := by
  cases hget : heap.get? h with
  | none => exact ⟨_, content?_of_foreign hget⟩
  | some bytes => exact ⟨_, content?_of_get? hget⟩

/-- Comparing handles before strings changes nothing, as equal handles have the same content. -/
theorem valuesEqual_objects_iff :
    heap.valuesEqual (.object h) (.object k) = true ↔
      heap.content? (.object h) = heap.content? (.object k) := by
  by_cases hhandle : h = k
  · simp [valuesEqual, hhandle]
  · cases hh : heap.get? h with
    | none =>
      have hnot : ¬ heap.content? (.object k) = some (.foreign h) := by
        rw [content?_eq_foreign_iff, Value.object.injEq]
        exact fun hk => hhandle hk.1.symm
      rw [content?_of_foreign hh]
      simp only [valuesEqual, hh, beq_eq_false_iff_ne.2 hhandle, Bool.false_or, Bool.false_eq_true,
        false_iff]
      exact fun heq => hnot heq.symm
    | some s =>
      cases hk : heap.get? k with
      | none => simp [valuesEqual, content?, hh, hk, hhandle]
      | some t => simp [valuesEqual, content?, hh, hk, hhandle]

/-! ### The laws -/

/-- Values of two kinds are never equal. -/
theorem valuesEqual_of_kind_ne (hkind : v.kind ≠ w.kind) : heap.valuesEqual v w = false := by
  cases v <;> cases w <;> first | rfl | exact absurd rfl hkind

/-- **Equality compares contents** and nothing else. -/
theorem valuesEqual_iff :
    heap.valuesEqual v w = true ↔ ∃ c, heap.content? v = some c ∧ heap.content? w = some c := by
  by_cases hkind : v.kind = w.kind
  · cases v with
    | nil =>
      cases w with
      | nil => simp [valuesEqual, Value.identical, content?]
      | _ => cases hkind
    | bool a =>
      cases w with
      | bool b =>
        simp only [valuesEqual, Value.identical, content?, beq_iff_eq, Option.some.injEq,
          exists_eq_left', Content.bool.injEq]
        exact eq_comm
      | _ => cases hkind
    | number x =>
      cases w with
      | number y =>
        simp only [valuesEqual, Value.identical, Binary64.equal, content?]
        cases x.isNaN with
        | true => simp
        | false =>
          cases y.isNaN with
          | true => simp
          | false => simpa using eq_comm
      | _ => cases hkind
    | object h =>
      cases w with
      | object k =>
        obtain ⟨c, hc⟩ := heap.exists_content?_object h
        rw [valuesEqual_objects_iff, hc]
        simp [eq_comm]
      | _ => cases hkind
  · rw [valuesEqual_of_kind_ne hkind]
    simp only [Bool.false_eq_true, false_iff]
    rintro ⟨c, hv, hw⟩
    exact hkind ((kind_of_content? hv).trans (kind_of_content? hw).symm)

theorem valuesEqual_comm (heap : Heap) (v w : Value) :
    heap.valuesEqual v w = heap.valuesEqual w v := by
  rw [Bool.eq_iff_iff, valuesEqual_iff, valuesEqual_iff]
  exact exists_congr fun c => and_comm

theorem valuesEqual_trans {u : Value} (huv : heap.valuesEqual u v = true)
    (hvw : heap.valuesEqual v w = true) : heap.valuesEqual u w = true := by
  obtain ⟨c, hu, hv⟩ := valuesEqual_iff.1 huv
  obtain ⟨d, hv', hw⟩ := valuesEqual_iff.1 hvw
  rw [hv] at hv'
  cases hv'
  exact valuesEqual_iff.2 ⟨c, hu, hw⟩

/-- A NaN is the only value that differs from itself. -/
theorem valuesEqual_self_eq_false_iff :
    heap.valuesEqual v v = false ↔ ∃ x, v = .number x ∧ x.isNaN = true := by
  have hcontent : heap.content? v = none ↔ ∃ x, v = .number x ∧ x.isNaN = true :=
    content?_eq_none_iff
  rw [← hcontent, ← Bool.not_eq_true, valuesEqual_iff]
  simp [Option.eq_none_iff_forall_ne_some]

/-- Strings are equal if their bytes are. -/
theorem valuesEqual_strings_iff {s t : List UInt8} (hs : heap.get? h = some s)
    (ht : heap.get? k = some t) :
    heap.valuesEqual (.object h) (.object k) = true ↔ s = t := by
  rw [valuesEqual_objects_iff, content?_of_get? hs, content?_of_get? ht]
  simp

/-- A handle that names nothing is equal to itself alone. -/
theorem valuesEqual_foreign_iff (hnone : heap.get? h = none) :
    heap.valuesEqual (.object h) w = true ↔ w = .object h := by
  rw [valuesEqual_iff, content?_of_foreign hnone]
  simp [content?_eq_foreign_iff, hnone]

/-! ### Growing heaps -/

/-- The values of a heap keep their content while it grows. -/
theorem content?_of_extends {grown : Heap} (h : heap.Extends grown) (hv : heap.Holds v) :
    grown.content? v = heap.content? v := by
  cases v with
  | nil | bool b | number x => rfl
  | object handle =>
    obtain ⟨bytes, hbytes⟩ := owns_iff_exists_get?.1 (hv handle rfl)
    rw [content?_of_get? hbytes, content?_of_get? (h.get? hbytes)]

theorem valuesEqual_of_extends {grown : Heap} (h : heap.Extends grown) (hv : heap.Holds v)
    (hw : heap.Holds w) : grown.valuesEqual v w = heap.valuesEqual v w := by
  rw [Bool.eq_iff_iff, valuesEqual_iff, valuesEqual_iff, content?_of_extends h hv,
    content?_of_extends h hw]

/-- **The laws of equality.** Values are equal if they have one content. So equality is symmetric and
transitive, and a NaN is the only value that differs from itself. Values of two kinds are never
equal; strings are equal if their bytes are; a handle that names nothing is equal to itself alone.
The answer for values of the heap stays what it is, whatever strings are added. -/
theorem valuesEqual_laws (heap : Heap) :
    (∀ a b, heap.valuesEqual a b = true ↔
      ∃ c, heap.content? a = some c ∧ heap.content? b = some c) ∧
    (∀ a b, heap.valuesEqual a b = heap.valuesEqual b a) ∧
    (∀ a b c, heap.valuesEqual a b = true → heap.valuesEqual b c = true →
      heap.valuesEqual a c = true) ∧
    (∀ a, heap.valuesEqual a a = false ↔ ∃ x, a = .number x ∧ x.isNaN = true) ∧
    (∀ a b, a.kind ≠ b.kind → heap.valuesEqual a b = false) ∧
    (∀ h k s t, heap.get? h = some s → heap.get? k = some t →
      (heap.valuesEqual (.object h) (.object k) = true ↔ s = t)) ∧
    (∀ h b, heap.get? h = none → (heap.valuesEqual (.object h) b = true ↔ b = .object h)) ∧
    ∀ strings a b, heap.Holds a → heap.Holds b →
      (heap.allocAll strings).valuesEqual a b = heap.valuesEqual a b := by
  refine ⟨fun a b => valuesEqual_iff, heap.valuesEqual_comm, fun a b c => valuesEqual_trans,
    fun a => valuesEqual_self_eq_false_iff, fun a b => valuesEqual_of_kind_ne,
    fun h k s t => valuesEqual_strings_iff, fun h b => valuesEqual_foreign_iff, ?_⟩
  intro strings a b ha hb
  exact valuesEqual_of_extends (heap.extends_allocAll strings) ha hb

end Heap

end ExprMachine
