import ExprMachine.Proofs.Dispatch

/-!
# The turns of a run

The loop looks at the code once in each turn. What it finds at an offset depends on the code alone;
what it does with it depends on the machine at that moment.

* `Fetched`, `Chunk.fetch` — what stands at an offset, and `Fetched.width` the bytes it takes;
* `dispatch_running` — one turn, by what is fetched;
* `dispatches_induction` — what every turn keeps holds at every point of the loop;
* `turns`, `Machine.turnsOf` — the points at which the turns of a run begin, in order;
* `mem_turnsOf_iff` — these are all the points of the loop but its end;
* `view_runAt` — what each turn adds to the machine, the run adds turn by turn.
-/

namespace ExprMachine

/-! ### Fetching -/

/-- What stands at an offset of a chunk. -/
inductive Fetched where
  /-- The code has ended. -/
  | nothing
  /-- A byte that encodes no instruction. -/
  | unknown (byte : UInt8)
  /-- A constant instruction at the end of the code, without the index it needs. -/
  | bare
  /-- A constant instruction with its index. -/
  | constant (index : UInt8)
  /-- An instruction that stands alone. -/
  | instruction (op : OpCode)
  deriving DecidableEq, Repr

/-- The bytes that are read with what is fetched. -/
def Fetched.width : Fetched → Nat
  | nothing => 0
  | constant _ => 2
  | _ => 1

/-- Look at an offset. -/
def Chunk.fetch (chunk : Chunk) (offset : Nat) : Fetched :=
  match chunk.code[offset]? with
  | none => .nothing
  | some byte =>
    match OpCode.ofByte? byte with
    | none => .unknown byte
    | some .constant =>
      match chunk.code[offset + 1]? with
      | none => .bare
      | some index => .constant index
    | some op => .instruction op

theorem Chunk.fetch_eq_nothing_iff {chunk : Chunk} {offset : Nat} :
    chunk.fetch offset = .nothing ↔ chunk.size ≤ offset := by
  have hnone : chunk.code[offset]? = none ↔ chunk.size ≤ offset := Array.getElem?_eq_none_iff
  rw [← hnone]
  cases hbyte : chunk.code[offset]? with
  | none => simp [fetch, hbyte]
  | some byte =>
    simp only [fetch, hbyte]
    repeat' split
    all_goals simp

/-- What is fetched lies inside the code. -/
theorem Chunk.add_width_le {chunk : Chunk} {offset : Nat} (h : offset < chunk.size) :
    offset + (chunk.fetch offset).width ≤ chunk.size := by
  have hbyte : chunk.code[offset]? = some chunk.code[offset] := Array.getElem?_eq_getElem h
  simp only [fetch, hbyte]
  split
  · exact h
  · split
    · exact h
    · rename_i index hindex
      obtain ⟨hlt, -⟩ := Array.getElem?_eq_some_iff.1 hindex
      exact hlt
  · exact h

/-! ### Turns -/

/-- The machine at a point of the loop. -/
def Progress.machine : Progress → Machine
  | .running _ m => m
  | .ended outcome => outcome.1

namespace Machine

/-- What the machine does with what it has fetched. -/
def obey (chunk : Chunk) (offset : Nat) (m : Machine) : Fetched → Progress
  | .nothing => .ended (m.fail chunk (offset - 1) .endOfCode)
  | .unknown byte => .ended (m.fail chunk offset (.unknownOpcode byte))
  | .bare => .ended (m.fail chunk offset .missingOperand)
  | .constant index => Outcome.progress chunk offset 2 (m.pushConstant chunk index)
  | .instruction .halt => .ended (conclude chunk offset (m.execute .halt))
  | .instruction op => Outcome.progress chunk offset 1 (m.execute op)

theorem obey_instruction (chunk : Chunk) (offset : Nat) (m : Machine) {op : OpCode}
    (h : op ≠ .halt) : obey chunk offset m (.instruction op) =
      Outcome.progress chunk offset 1 (m.execute op) := by
  cases op with
  | halt => exact absurd rfl h
  | _ => rfl

/-- A turn: note what is due, fetch it and obey. -/
theorem dispatch_running (chunk : Chunk) (offset : Nat) (m : Machine) :
    dispatch chunk (.running offset m) =
      obey chunk offset (m.trace chunk offset) (chunk.fetch offset) := by
  simp only [dispatch, Chunk.fetch]
  cases chunk.code[offset]? with
  | none => rfl
  | some byte =>
    simp only
    cases OpCode.ofByte? byte with
    | none => rfl
    | some op =>
      cases op with
      | constant => cases chunk.code[offset + 1]? <;> rfl
      | _ => rfl

/-! ### Points of the loop -/

/-- The last turn, instead of the first, split off. -/
theorem dispatches_succ (chunk : Chunk) (k : Nat) (p : Progress) :
    dispatches chunk (k + 1) p = dispatch chunk (dispatches chunk k p) := by
  induction k generalizing p with
  | zero => rfl
  | succ k ih =>
    rw [dispatches, ih]
    rfl

/-- What every turn keeps, the turns together keep. -/
theorem dispatches_induction {chunk : Chunk} {P : Progress → Prop}
    (hturn : ∀ offset m, P (.running offset m) → P (dispatch chunk (.running offset m)))
    {p : Progress} (h : P p) (n : Nat) : P (dispatches chunk n p) := by
  induction n generalizing p with
  | zero => exact h
  | succ n ih =>
    rw [dispatches]
    cases p with
    | running offset m => exact ih (hturn offset m h)
    | ended outcome => exact ih h

/-- The points at which the next `n` turns begin, in order. -/
def turns (chunk : Chunk) : Nat → Progress → List (Nat × Machine)
  | 0, _ => []
  | _ + 1, .ended _ => []
  | n + 1, .running offset m => (offset, m) :: turns chunk n (dispatch chunk (.running offset m))

theorem mem_turns_iff {chunk : Chunk} {n offset : Nat} {m : Machine} {p : Progress} :
    (offset, m) ∈ turns chunk n p ↔ ∃ k, k < n ∧ dispatches chunk k p = .running offset m := by
  induction n generalizing p with
  | zero => simp [turns]
  | succ n ih =>
    cases p with
    | ended outcome => simp [turns, dispatches_ended]
    | running offset' m' =>
      rw [turns, List.mem_cons, ih]
      constructor
      · intro h
        rcases h with heq | ⟨k, hk, hrun⟩
        · cases heq
          exact ⟨0, Nat.succ_pos n, rfl⟩
        · exact ⟨k + 1, Nat.succ_lt_succ hk, hrun⟩
      · intro h
        obtain ⟨k, hk, hrun⟩ := h
        cases k with
        | zero =>
          left
          cases hrun
          rfl
        | succ k => exact .inr ⟨k, Nat.lt_of_succ_lt_succ hk, hrun⟩

/-- What each turn adds to a view of the machine, the turns together add in their order. -/
theorem view_dispatches {α β : Type} {chunk : Chunk} (view : Machine → β) (add : β → List α → β)
    (added : Nat → Machine → List α) (hnil : ∀ b, add b [] = b)
    (happend : ∀ b xs ys, add (add b xs) ys = add b (xs ++ ys))
    (hturn : ∀ offset m, view (dispatch chunk (.running offset m)).machine =
      add (view m) (added offset m)) (n : Nat) (p : Progress) :
    view (dispatches chunk n p).machine =
      add (view p.machine) ((turns chunk n p).flatMap fun turn => added turn.1 turn.2) := by
  induction n generalizing p with
  | zero => exact (hnil _).symm
  | succ n ih =>
    rw [dispatches, ih]
    cases p with
    | ended outcome =>
      have hnone : turns chunk n (.ended outcome) = [] := by cases n <;> rfl
      show add (view outcome.1) ((turns chunk n (.ended outcome)).flatMap _) = _
      rw [hnone]
      rfl
    | running offset m =>
      rw [hturn, happend, turns, List.flatMap_cons]
      rfl

/-! ### The turns of a run -/

/-- The loop before its first turn. -/
def start (m : Machine) (chunk : Chunk) : Progress := .running 0 (m.begin chunk)

/-- The points at which the turns of a run begin, in order. -/
def turnsOf (m : Machine) (chunk : Chunk) : List (Nat × Machine) :=
  turns chunk (chunk.size + 1) (m.start chunk)

/-- There are enough turns. -/
theorem dispatches_start (m : Machine) (chunk : Chunk) {n : Nat} (h : chunk.size < n) :
    dispatches chunk n (m.start chunk) = .ended (runAt chunk 0 (m.begin chunk)) :=
  dispatches_eq_runAt chunk n 0 (m.begin chunk) h

/-- The turns begin at all points of the loop but its end. -/
theorem mem_turnsOf_iff {m m' : Machine} {chunk : Chunk} {offset : Nat} :
    (offset, m') ∈ m.turnsOf chunk ↔
      ∃ k, dispatches chunk k (m.start chunk) = .running offset m' := by
  rw [turnsOf, mem_turns_iff]
  constructor
  · intro h
    obtain ⟨k, -, hrun⟩ := h
    exact ⟨k, hrun⟩
  · intro h
    obtain ⟨k, hrun⟩ := h
    refine ⟨k, ?_, hrun⟩
    refine Nat.lt_succ_of_le (Nat.le_of_not_lt ?_)
    intro hmany
    rw [dispatches_start m chunk hmany] at hrun
    cases hrun

/-- A turn that goes on is followed by a turn. -/
theorem mem_turnsOf_dispatch {start m m' : Machine} {chunk : Chunk} {offset next : Nat}
    (h : (offset, m) ∈ start.turnsOf chunk)
    (hnext : dispatch chunk (.running offset m) = .running next m') :
    (next, m') ∈ start.turnsOf chunk := by
  obtain ⟨k, hk⟩ := mem_turnsOf_iff.1 h
  refine mem_turnsOf_iff.2 ⟨k + 1, ?_⟩
  rw [dispatches_succ, hk, hnext]

/-- What the turns of a run add to a view of the machine. -/
theorem view_runAt {α β : Type} {chunk : Chunk} (view : Machine → β) (add : β → List α → β)
    (added : Nat → Machine → List α) (hnil : ∀ b, add b [] = b)
    (happend : ∀ b xs ys, add (add b xs) ys = add b (xs ++ ys))
    (hturn : ∀ offset m, view (dispatch chunk (.running offset m)).machine =
      add (view m) (added offset m)) (m : Machine) :
    view (runAt chunk 0 (m.begin chunk)).1 =
      add (view (m.begin chunk)) ((m.turnsOf chunk).flatMap fun turn => added turn.1 turn.2) := by
  have hview := view_dispatches view add added hnil happend hturn (chunk.size + 1) (m.start chunk)
  rw [dispatches_start m chunk (Nat.lt_succ_self _)] at hview
  exact hview

end Machine

end ExprMachine
