import Mathlib.Algebra.GroupWithZero.Nat
import Mathlib.Data.List.Basic
import ExprMachine.Proofs.Evaluation
import ExprMachine.Proofs.Turns

/-!
# What runs allocate

A machine's heap grows during a run by the strings that single instructions make, in their order,
and by nothing else. Every handle on the stack names a string of that heap, at every point of every
run, so no value is ever printed as the handle of a stranger.

* `Heap.allocAll`, `Heap.footprint` — many allocations, and the bytes that all strings take;
* `Heap.Holds`, `Machine.OwnsStack` — a value, and the values of a stack, without foreign handles;
* `made?` — the string that an instruction makes: the copy of a constant, or the sum of two strings;
* `Machine.Grows` — what an instruction does to heap and stack; `obey_grows` says it of each turn;
* `runChunk_allocates` — what a whole run does.
-/

namespace ExprMachine

/-! ### Many allocations -/

namespace Heap

/-- Add strings one after the other. -/
def allocAll (heap : Heap) (strings : List (List UInt8)) : Heap :=
  strings.foldl (fun heap bytes => (heap.alloc bytes).2) heap

/-- The bytes that strings take, their headers included. -/
def sizeOfAll (strings : List (List UInt8)) : Nat :=
  (strings.map fun bytes => headerSize + bytes.length).sum

/-- The bytes that the strings of a heap take. -/
def footprint (heap : Heap) : Nat := sizeOfAll heap.objects.toList

/-- Heaps as they come about: empty at first, then filled by allocations. -/
def Arises (heap : Heap) : Prop := ∃ id strings, heap = ({ id } : Heap).allocAll strings

variable (heap : Heap)

@[simp]
theorem allocAll_nil : heap.allocAll [] = heap := rfl

theorem allocAll_append (strings more : List (List UInt8)) :
    (heap.allocAll strings).allocAll more = heap.allocAll (strings ++ more) := by
  rw [allocAll, allocAll, allocAll, List.foldl_append]

@[simp]
theorem id_allocAll (strings : List (List UInt8)) : (heap.allocAll strings).id = heap.id := by
  induction strings generalizing heap with
  | nil => rfl
  | cons bytes strings ih => exact ih (heap.alloc bytes).2

@[simp]
theorem objects_allocAll (strings : List (List UInt8)) :
    (heap.allocAll strings).objects.toList = heap.objects.toList ++ strings := by
  induction strings generalizing heap with
  | nil => simp
  | cons bytes strings ih =>
    have hrest := ih (heap.alloc bytes).2
    simp only [alloc, Array.toList_push, List.append_assoc, List.singleton_append] at hrest
    exact hrest

@[simp]
theorem allocated_allocAll (strings : List (List UInt8)) :
    (heap.allocAll strings).allocated = heap.allocated + sizeOfAll strings := by
  induction strings generalizing heap with
  | nil => rfl
  | cons bytes strings ih =>
    have hrest : ((heap.alloc bytes).2.allocAll strings).allocated =
        heap.allocated + (headerSize + bytes.length) + sizeOfAll strings := ih (heap.alloc bytes).2
    show ((heap.alloc bytes).2.allocAll strings).allocated = _
    rw [hrest, Nat.add_assoc]
    rfl

@[simp]
theorem size_allocAll (strings : List (List UInt8)) :
    (heap.allocAll strings).size = heap.size + strings.length := by
  have hlength := congrArg List.length (heap.objects_allocAll strings)
  rwa [List.length_append, Array.length_toList, Array.length_toList] at hlength

theorem extends_allocAll (strings : List (List UInt8)) : heap.Extends (heap.allocAll strings) where
  id_eq := heap.id_allocAll strings
  objects_initial := by
    rw [objects_allocAll]
    exact List.prefix_append _ _

variable {heap}

theorem Arises.allocAll (h : heap.Arises) (strings : List (List UInt8)) :
    (heap.allocAll strings).Arises := by
  obtain ⟨id, before, rfl⟩ := h
  exact ⟨id, before ++ strings, allocAll_append _ before strings⟩

/-- The count that a heap keeps is that of its strings. -/
theorem Arises.allocated_eq (h : heap.Arises) : heap.allocated = heap.footprint := by
  obtain ⟨id, strings, rfl⟩ := h
  rw [footprint, allocated_allocAll, objects_allocAll, List.nil_append, Nat.zero_add]

/-! ### Values of a heap -/

/-- A value is no handle, or the handle of a string of the heap. -/
def Holds (heap : Heap) (v : Value) : Prop := ∀ h, v = .object h → heap.owns h = true

theorem Extends.holds {grown : Heap} (h : heap.Extends grown) {v : Value} (hv : heap.Holds v) :
    grown.Holds v := fun handle hhandle => h.owns (hv handle hhandle)

theorem holds_alloc (heap : Heap) (bytes : List UInt8) :
    (heap.alloc bytes).2.Holds (.object (heap.alloc bytes).1) := by
  intro handle hhandle
  cases hhandle
  exact owns_iff_exists_get?.2 ⟨bytes, heap.get?_alloc_self bytes⟩

/-- A value of a heap stands for a literal there. -/
theorem Holds.exists_literal? {v : Value} (hv : heap.Holds v) : ∃ x, heap.literal? v = some x := by
  cases v with
  | nil => exact ⟨.nil, rfl⟩
  | bool b => exact ⟨.bool b, rfl⟩
  | number x => exact ⟨.number x, rfl⟩
  | object handle =>
    obtain ⟨bytes, hbytes⟩ := owns_iff_exists_get?.1 (hv handle rfl)
    exact ⟨.string bytes, by rw [literal?, hbytes, Option.map_some]⟩

/-- A handle of a heap can be read as a string there. -/
theorem Holds.asString_eq_ok {handle : Handle} (hv : heap.Holds (.object handle)) :
    ∃ bytes, heap.asString (.object handle) = .ok bytes := by
  obtain ⟨bytes, hbytes⟩ := owns_iff_exists_get?.1 (hv handle rfl)
  refine ⟨bytes, ?_⟩
  simp only [asString, Value.asObject, bind, Except.bind, hbytes]

end Heap

/-! ### The strings that instructions make -/

namespace Machine

/-- The string of a constant that has to be copied: it is the chunk's and not the heap's. -/
def copied? (chunk : Chunk) (heap : Heap) (index : UInt8) : Option (List UInt8) :=
  match chunk.constants[index.toNat]? with
  | some (.object h) => if heap.owns h then none else chunk.objects.get? h
  | _ => none

/-- The bytes of the left string and then of the right, if the stack has two strings on top. -/
def joined? (m : Machine) : Option (List UInt8) :=
  match m.stack with
  | right :: left :: _ =>
    match m.heap.literal? left, m.heap.literal? right with
    | some (.string s), some (.string t) => some (s ++ t)
    | _, _ => none
  | _ => none

/-- The string that the machine makes of what it has fetched, if it makes one. -/
def made? (chunk : Chunk) (m : Machine) : Fetched → Option (List UInt8)
  | .constant index => copied? chunk m.heap index
  | .instruction .add => m.joined?
  | _ => none

/-- The strings that a run makes, in the order of its turns. -/
def madeBy (m : Machine) (chunk : Chunk) : List (List UInt8) :=
  (m.turnsOf chunk).filterMap fun turn => made? chunk turn.2 (chunk.fetch turn.1)

/-! ### What an instruction does to heap and stack -/

/-- Every handle on the stack names a string of the machine's heap. -/
def OwnsStack (m : Machine) : Prop := ∀ v ∈ m.stack, m.heap.Holds v

/-- A machine after more work: its heap has new strings, its stack no foreign handles if it had
none before, and its sink takes everything if it did. -/
structure Grows (m : Machine) (made : List (List UInt8)) (m' : Machine) : Prop where
  heap_eq : m'.heap = m.heap.allocAll made
  ownsStack : m.OwnsStack → m'.OwnsStack
  room_eq : m.output.room = none → m'.output.room = none
  options_eq : m'.options = m.options

variable {m m' : Machine} {made : List (List UInt8)}

theorem Grows.refl (m : Machine) : m.Grows [] m := ⟨rfl, id, id, rfl⟩

theorem note_grows (m : Machine) (entry : Entry) : m.Grows [] (m.note entry) := ⟨rfl, id, id, rfl⟩

theorem Grows.trans {m'' : Machine} {more : List (List UInt8)} (h : m.Grows made m')
    (h' : m'.Grows more m'') : m.Grows (made ++ more) m'' where
  heap_eq := by rw [h'.heap_eq, h.heap_eq, Heap.allocAll_append]
  ownsStack := fun howns => h'.ownsStack (h.ownsStack howns)
  room_eq := fun hroom => h'.room_eq (h.room_eq hroom)
  options_eq := h'.options_eq.trans h.options_eq

/-- Values are popped while the heap takes new strings. -/
theorem grows_pop {stack : List Value} (popped : List Value) (hstack : m.stack = popped ++ stack)
    (made : List (List UInt8)) :
    m.Grows made { m with stack, heap := m.heap.allocAll made } where
  heap_eq := rfl
  ownsStack := by
    intro howns v hv
    have hmem : v ∈ m.stack := by
      rw [hstack]
      exact List.mem_append_right popped hv
    exact (m.heap.extends_allocAll made).holds (howns v hmem)
  room_eq := id
  options_eq := rfl

theorem push_grows (m : Machine) {v : Value} (hv : m.OwnsStack → m.heap.Holds v) :
    m.Grows [] (m.push v).1 := by
  unfold push
  split
  · exact .refl m
  · refine ⟨rfl, ?_, id, rfl⟩
    intro howns w hw
    rcases List.mem_cons.1 hw with rfl | hmem
    · exact hv howns
    · exact howns w hmem

theorem push_scalar_grows (m : Machine) {v : Value} (hv : ∀ h, v ≠ .object h) :
    m.Grows [] (m.push v).1 := m.push_grows fun _ h hh => absurd hh (hv h)

/-- An operation that makes a scalar of two values makes no string. -/
theorem binary_grows (m : Machine) {f : Heap → Value → Value → Except Fault (Value × Heap)}
    (hf : ∀ left right v heap, f m.heap left right = .ok (v, heap) →
      heap = m.heap ∧ ∀ h, v ≠ .object h) :
    m.Grows [] (m.binary f).1 := by
  unfold binary
  split
  · rename_i right left stack hstack
    have hpop := grows_pop [right, left] hstack []
    split
    · rename_i v heap hok
      obtain ⟨rfl, hv⟩ := hf left right v heap hok
      exact hpop.trans (push_scalar_grows _ hv)
    · exact hpop
  · exact grows_pop m.stack (List.append_nil _).symm []

theorem numeric_grows (m : Machine) {g : Binary64 → Binary64 → Value}
    (hg : ∀ x y h, g x y ≠ .object h) : m.Grows [] (m.binary (numeric g)).1 := by
  apply m.binary_grows
  intro left right v heap h
  unfold numeric at h
  split at h <;> cases h
  exact ⟨rfl, hg _ _⟩

theorem unary_grows (m : Machine) {f : Value → Except Fault Value}
    (hf : ∀ operand v, f operand = .ok v → ∀ h, v ≠ .object h) : m.Grows [] (m.unary f).1 := by
  unfold unary
  split
  · rename_i operand stack hstack
    have hpop := grows_pop [operand] hstack []
    split
    · rename_i v hok
      exact hpop.trans (push_scalar_grows _ (hf operand v hok))
    · exact hpop
  · exact .refl m

/-- Adding makes the joined string, if there are two strings to join. -/
theorem add_grows (m : Machine) : m.Grows m.joined?.toList (m.binary addValues).1 := by
  unfold binary joined?
  cases hstack : m.stack with
  | nil => exact grows_pop [] hstack []
  | cons right below =>
    cases below with
    | nil => exact grows_pop [right] hstack []
    | cons left stack =>
      have hpop := grows_pop [right, left] hstack
      cases left with
      | nil | bool b => cases right <;> exact hpop []
      | number x =>
        cases right with
        | number y => exact (hpop []).trans (push_scalar_grows _ nofun)
        | nil | bool b | object k => exact hpop []
      | object h =>
        cases right with
        | nil | bool b | number y =>
          simp only [addValues, Heap.literal?]
          cases m.heap.get? h <;> exact hpop []
        | object k =>
          simp only [addValues, Heap.literal?]
          cases m.heap.get? h with
          | none => exact hpop []
          | some s =>
            cases m.heap.get? k with
            | none => exact hpop []
            | some t =>
              exact (hpop [s ++ t]).trans (push_grows _ fun _ => m.heap.holds_alloc (s ++ t))

/-- A constant makes its copy, if it has to be copied, before it is pushed. -/
theorem pushConstant_grows (m : Machine) (chunk : Chunk) (index : UInt8) :
    m.Grows (copied? chunk m.heap index).toList (m.pushConstant chunk index).1 := by
  unfold pushConstant copied?
  cases chunk.constants[index.toNat]? with
  | none => exact .refl m
  | some v =>
    cases v with
    | nil | bool b | number x => exact m.push_scalar_grows nofun
    | object h =>
      simp only [importValue]
      cases howns : m.heap.owns h with
      | true =>
        apply m.push_grows
        intro _ k hk
        cases hk
        exact howns
      | false =>
        cases chunk.objects.get? h with
        | none => exact .refl m
        | some bytes =>
          exact (grows_pop [] rfl [bytes]).trans (push_grows _ fun _ => m.heap.holds_alloc bytes)

theorem printTop_grows (m : Machine) : m.Grows [] m.printTop.1 := by
  unfold printTop
  split
  · exact .refl m
  · rename_i v stack hstack
    have hpop : m.Grows [] { m with stack } := grows_pop [v] hstack []
    refine ⟨rfl, hpop.ownsStack, ?_, rfl⟩
    intro hroom
    rw [Sink.write_of_unlimited hroom]
    exact hroom

/-- What an instruction that stands alone does to heap and stack. -/
theorem execute_grows (m : Machine) (chunk : Chunk) (op : OpCode) :
    m.Grows (made? chunk m (.instruction op)).toList (m.execute op).1 := by
  cases op with
  | constant => exact .refl m
  | pushNil | pushTrue | pushFalse => exact m.push_scalar_grows nofun
  | equal =>
    apply m.binary_grows
    intro left right v heap h
    cases h
    exact ⟨rfl, nofun⟩
  | add => exact m.add_grows
  | greater | less | subtract | multiply | divide => exact m.numeric_grows nofun
  | not =>
    apply m.unary_grows
    intro operand v h
    cases h
    exact nofun
  | negate =>
    apply m.unary_grows
    intro operand v h
    unfold negateValue at h
    split at h <;> cases h
    exact nofun
  | halt => exact m.printTop_grows

theorem fail_grows (m : Machine) (chunk : Chunk) (offset : Nat) (fault : Fault) :
    m.Grows [] (m.fail chunk offset fault).1 := by
  unfold fail
  split
  · exact m.note_grows _
  · exact .refl m

theorem trace_grows (m : Machine) (chunk : Chunk) (offset : Nat) :
    m.Grows [] (m.trace chunk offset) := by
  unfold trace
  split
  · exact m.note_grows _
  · exact .refl m

theorem progress_grows {outcome : Outcome} (h : m.Grows made outcome.1) (chunk : Chunk)
    (offset width : Nat) : m.Grows made (outcome.progress chunk offset width).machine := by
  obtain ⟨m', fault?⟩ := outcome
  cases fault? with
  | none => exact h
  | some fault =>
    have hfail := h.trans (fail_grows m' chunk offset fault)
    rwa [List.append_nil] at hfail

theorem conclude_grows {outcome : Outcome} (h : m.Grows made outcome.1) (chunk : Chunk)
    (offset : Nat) : m.Grows made (conclude chunk offset outcome).1 := by
  obtain ⟨m', fault?⟩ := outcome
  cases fault? with
  | none => exact h
  | some fault =>
    have hfail := h.trans (fail_grows m' chunk offset fault)
    rwa [List.append_nil] at hfail

/-- **What the machine does to heap and stack**, whatever it has fetched and however it ends. -/
theorem obey_grows (chunk : Chunk) (offset : Nat) (m : Machine) (fetched : Fetched) :
    m.Grows (made? chunk m fetched).toList (obey chunk offset m fetched).machine := by
  cases fetched with
  | nothing | unknown byte | bare => exact m.fail_grows chunk _ _
  | constant index => exact progress_grows (m.pushConstant_grows chunk index) chunk offset 2
  | instruction op =>
    have hexecute := m.execute_grows chunk op
    by_cases hhalt : op = .halt
    · subst hhalt
      exact conclude_grows hexecute chunk offset
    · rw [obey_instruction chunk offset m hhalt]
      exact progress_grows hexecute chunk offset 1

/-- Tracing does not change what is made. -/
theorem made?_trace (chunk : Chunk) (offset : Nat) (m : Machine) (fetched : Fetched) :
    made? chunk (m.trace chunk offset) fetched = made? chunk m fetched := by
  have hjoined : (m.trace chunk offset).joined? = m.joined? := by
    simp only [joined?, stack_trace, heap_trace]
  unfold made?
  rw [heap_trace, hjoined]

theorem dispatch_grows (chunk : Chunk) (offset : Nat) (m : Machine) :
    m.Grows (made? chunk m (chunk.fetch offset)).toList
      (dispatch chunk (.running offset m)).machine := by
  rw [dispatch_running, ← made?_trace chunk offset]
  exact (m.trace_grows chunk offset).trans (obey_grows chunk offset _ _)

/-! ### Whole runs -/

/-- Each point of a run has grown out of the machine that began it, whose stack is empty. -/
theorem dispatches_keep (m : Machine) (chunk : Chunk) (n : Nat) :
    let point := (dispatches chunk n (m.start chunk)).machine
    point.OwnsStack ∧ (m.output.room = none → point.output.room = none) ∧
      point.options = m.options := by
  refine dispatches_induction (P := fun p => p.machine.OwnsStack ∧
    (m.output.room = none → p.machine.output.room = none) ∧ p.machine.options = m.options) ?_ ?_ n
  · intro offset m' h
    obtain ⟨howns, hroom, hoptions⟩ := h
    have hgrows := dispatch_grows chunk offset m'
    exact ⟨hgrows.ownsStack howns, fun h => hgrows.room_eq (hroom h),
      hgrows.options_eq.trans hoptions⟩
  · exact ⟨fun v hv => absurd hv List.not_mem_nil, id, rfl⟩

/-- A run makes the strings of its turns. -/
theorem heap_runAt (m : Machine) (chunk : Chunk) :
    (runAt chunk 0 (m.begin chunk)).1.heap = m.heap.allocAll (m.madeBy chunk) := by
  have hview := view_runAt Machine.heap Heap.allocAll
    (fun offset m => (made? chunk m (chunk.fetch offset)).toList) (fun _ => rfl)
    Heap.allocAll_append (fun offset m => (dispatch_grows chunk offset m).heap_eq) m
  rw [hview, heap_begin, madeBy, List.filterMap_eq_flatMap_toList]

/-- What follows the last turn adds to the journal, and may empty the stack. -/
theorem runChunk_fst (m : Machine) (chunk : Chunk) :
    let last := (runAt chunk 0 (m.begin chunk)).1
    ∃ journal stack, (m.runChunk chunk).1 = { last with journal, stack } ∧ stack ⊆ last.stack := by
  intro last
  cases hrun : runAt chunk 0 (m.begin chunk) with
  | mk m' result =>
    have hlast : last = m' := congrArg Prod.fst hrun
    rw [hlast]
    cases result with
    | ok _ =>
      rw [runChunk_of_ok hrun]
      exact ⟨_, m'.stack, rfl, fun v hv => hv⟩
    | error e =>
      rw [runChunk_of_error hrun]
      exact ⟨_, [], rfl, fun v hv => absurd hv List.not_mem_nil⟩

theorem heap_runChunk (m : Machine) (chunk : Chunk) :
    (m.runChunk chunk).1.heap = m.heap.allocAll (m.madeBy chunk) := by
  obtain ⟨journal, stack, heq, -⟩ := m.runChunk_fst chunk
  rw [heq]
  exact m.heap_runAt chunk

/-- **Runs and the heap.** However a run comes out, at each point of its loop every handle on the
stack names a string of the machine's own heap: reading it as a string succeeds, and a value is
printed as what it stands for. The heap after the run is the heap before it, so that every handle
that named a string names it still, and behind it the strings that the turns of the run made. The
bytes counted are those of these strings with their headers. -/
theorem runChunk_allocates (m : Machine) (chunk : Chunk) :
    let made := m.madeBy chunk
    let after := (m.runChunk chunk).1
    (∃ outcome : Machine × Except RuntimeError Unit,
      dispatches chunk (chunk.size + 1) (m.start chunk) = .ended outcome ∧
        outcome.2 = (m.runChunk chunk).2) ∧
      (∀ n point, point = (dispatches chunk n (m.start chunk)).machine → ∀ v ∈ point.stack,
        (∀ h, v = .object h →
          point.heap.owns h = true ∧ ∃ bytes, point.heap.asString v = .ok bytes) ∧
        ∃ x, point.heap.literal? v = some x ∧ point.heap.written v = x.written) ∧
      after.OwnsStack ∧
      after.heap.id = m.heap.id ∧
      after.heap.objects.toList = m.heap.objects.toList ++ made ∧
      (∀ h bytes, m.heap.get? h = some bytes → after.heap.get? h = some bytes) ∧
      after.heap.allocated = m.heap.allocated + Heap.sizeOfAll made ∧
      (m.heap.Arises → after.heap.Arises ∧ after.heap.allocated = after.heap.footprint) := by
  intro made after
  have hafter : after.heap = m.heap.allocAll made := m.heap_runChunk chunk
  have hend := dispatches_start m chunk (Nat.lt_succ_self chunk.size)
  refine ⟨⟨_, hend, (m.runChunk_snd chunk).symm⟩, ?_, ?_, ?_, ?_, ?_, ?_, ?_⟩
  · intro n point hpoint v hv
    have hholds : point.heap.Holds v := by
      rw [hpoint] at hv ⊢
      exact (m.dispatches_keep chunk n).1 v hv
    obtain ⟨x, hx⟩ := hholds.exists_literal?
    refine ⟨?_, x, hx, Heap.written_of_literal? hx⟩
    intro h hobject
    refine ⟨hholds h hobject, ?_⟩
    subst hobject
    exact hholds.asString_eq_ok
  · obtain ⟨journal, stack, heq, hsubset⟩ := m.runChunk_fst chunk
    have howns := (m.dispatches_keep chunk (chunk.size + 1)).1
    rw [hend] at howns
    rw [show after = _ from heq]
    exact fun v hv => howns v (hsubset hv)
  · rw [hafter, Heap.id_allocAll]
  · rw [hafter, Heap.objects_allocAll]
  · intro h bytes hbytes
    rw [hafter]
    exact (m.heap.extends_allocAll made).get? hbytes
  · rw [hafter, Heap.allocated_allocAll]
  · intro harises
    rw [hafter]
    have hgrown := harises.allocAll made
    exact ⟨hgrown, hgrown.allocated_eq⟩

/-- A string that finds no room on the stack has been copied all the same. -/
example :
    let named := (Chunk.empty ⟨1⟩).addString [97]
    let chunk := ((named.2.addConstant (.object named.1)).writeOp .constant 1).write 0 1
    ((new ⟨0⟩ { stackLimit := 0 }).runChunk chunk).1.heap = ⟨⟨0⟩, #[[97]], 17⟩ := by
  decide +kernel

end Machine

end ExprMachine
