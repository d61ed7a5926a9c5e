import ExprMachine.Proofs.Instruction

/-!
# The dispatch loop

A run is defined by recursion on the code that is left. As a loop it has one turn for each
instruction, and it makes no more turns than there are bytes, and one.

* `runFrom_instruction`, `runFrom_constant` — a run by its first instruction;
* `Progress`, `dispatch`, `dispatches` — the loop, turn by turn;
* `dispatches_eq_runAt` — the loop comes to its end, which is that of the run;
* `runChunk_of_ok`, `runChunk_of_error` — whole runs;
* `interpret_of_compile` — texts that compile.
-/

namespace ExprMachine

namespace Machine

variable (chunk : Chunk) (offset : Nat) (m : Machine)

/-! ### Runs by their first instruction -/

theorem runFrom_nil :
    runFrom chunk offset [] m = (m.trace chunk offset).fail chunk (offset - 1) .endOfCode := by
  rw [runFrom]

theorem runFrom_unknown {byte : UInt8} (rest : List UInt8) (h : OpCode.ofByte? byte = none) :
    runFrom chunk offset (byte :: rest) m =
      (m.trace chunk offset).fail chunk offset (.unknownOpcode byte) := by
  rw [runFrom]
  simp only [h]

/-- What follows an instruction that took `width` bytes. -/
def proceed (width : Nat) (rest : List UInt8) : Outcome → Machine × Except RuntimeError Unit
  | (m, none) => runFrom chunk (offset + width) rest m
  | (m, some fault) => m.fail chunk offset fault

theorem runFrom_constant {byte index : UInt8} (rest : List UInt8)
    (h : OpCode.ofByte? byte = some .constant) :
    runFrom chunk offset (byte :: index :: rest) m =
      proceed chunk offset 2 rest ((m.trace chunk offset).pushConstant chunk index) := by
  rw [runFrom]
  simp only [h]
  generalize (m.trace chunk offset).pushConstant chunk index = outcome
  obtain ⟨m', _ | fault⟩ := outcome <;> rfl

theorem runFrom_missing {byte : UInt8} (h : OpCode.ofByte? byte = some .constant) :
    runFrom chunk offset [byte] m = (m.trace chunk offset).fail chunk offset .missingOperand := by
  rw [runFrom]
  simp only [h, execute]

theorem runFrom_instruction {byte : UInt8} {op : OpCode} (rest : List UInt8)
    (h : OpCode.ofByte? byte = some op) (hconstant : op ≠ .constant) (hhalt : op ≠ .halt) :
    runFrom chunk offset (byte :: rest) m =
      proceed chunk offset 1 rest ((m.trace chunk offset).execute op) := by
  rw [runFrom]
  simp only [h]
  split
  · exact absurd rfl hconstant
  · generalize (m.trace chunk offset).execute op = outcome
    obtain ⟨m', _ | fault⟩ := outcome
    · exact if_neg hhalt
    · rfl

/-- How the last instruction ends a run. -/
def conclude : Outcome → Machine × Except RuntimeError Unit
  | (m, none) => (m, .ok ())
  | (m, some fault) => m.fail chunk offset fault

theorem runFrom_halt {byte : UInt8} (rest : List UInt8) (h : OpCode.ofByte? byte = some .halt) :
    runFrom chunk offset (byte :: rest) m =
      conclude chunk offset ((m.trace chunk offset).execute .halt) := by
  rw [runFrom]
  simp only [h]
  generalize (m.trace chunk offset).execute .halt = outcome
  obtain ⟨m', _ | fault⟩ := outcome <;> rfl

/-! ### Failing -/

theorem follows_fail (fault : Fault) : m.Follows (m.fail chunk offset fault).1 := by
  unfold fail
  split
  · exact m.follows_event _
  · exact .refl m

end Machine

/-! ### Turn by turn -/

/-- A run between two turns of the loop: at an offset, or at its end. -/
inductive Progress where
  | running (offset : Nat) (m : Machine)
  | ended (outcome : Machine × Except RuntimeError Unit)

namespace Machine

/-- What an instruction that takes `width` bytes leaves the loop with. -/
def Outcome.progress (chunk : Chunk) (offset width : Nat) : Outcome → Progress
  | (m, none) => .running (offset + width) m
  | (m, some fault) => .ended (m.fail chunk offset fault)

/-- One turn: fetch, decode, execute. -/
def dispatch (chunk : Chunk) : Progress → Progress
  | .ended outcome => .ended outcome
  | .running offset m =>
    let m := m.trace chunk offset
    match chunk.code[offset]? with
    | none => .ended (m.fail chunk (offset - 1) .endOfCode)
    | some byte =>
      match OpCode.ofByte? byte with
      | none => .ended (m.fail chunk offset (.unknownOpcode byte))
      | some .constant =>
        match chunk.code[offset + 1]? with
        | none => .ended (m.fail chunk offset .missingOperand)
        | some index => Outcome.progress chunk offset 2 (m.pushConstant chunk index)
      | some .halt => .ended (conclude chunk offset (m.execute .halt))
      | some op => Outcome.progress chunk offset 1 (m.execute op)

/-- Turns one after the other. -/
def dispatches (chunk : Chunk) : Nat → Progress → Progress
  | 0, progress => progress
  | n + 1, progress => dispatches chunk n (dispatch chunk progress)

theorem dispatches_ended (chunk : Chunk) (n : Nat) (outcome : Machine × Except RuntimeError Unit) :
    dispatches chunk n (.ended outcome) = .ended outcome := by
  induction n with
  | zero => rfl
  | succ n ih => exact ih

/-- The run of the code from an offset on. -/
def runAt (chunk : Chunk) (offset : Nat) (m : Machine) : Machine × Except RuntimeError Unit :=
  runFrom chunk offset (chunk.code.toList.drop offset) m

/-- A turn ends the run as it ends, or is followed by what follows in the run. -/
def TurnOf (chunk : Chunk) (offset : Nat) (m : Machine) : Progress → Prop
  | .ended outcome => runAt chunk offset m = outcome
  | .running next m' =>
    offset < next ∧ offset < chunk.size ∧ runAt chunk offset m = runAt chunk next m'

theorem turnOf_progress {chunk : Chunk} {offset width : Nat} {m : Machine} {outcome : Outcome}
    (hwidth : 0 < width) (hoffset : offset < chunk.size)
    (h : runAt chunk offset m =
      proceed chunk offset width (chunk.code.toList.drop (offset + width)) outcome) :
    TurnOf chunk offset m (outcome.progress chunk offset width) := by
  obtain ⟨m', fault?⟩ := outcome
  cases fault? with
  | none => exact ⟨Nat.lt_add_of_pos_right hwidth, hoffset, h⟩
  | some fault => exact h

theorem drop_of_getElem? {chunk : Chunk} {offset : Nat} {byte : UInt8}
    (h : chunk.code[offset]? = some byte) :
    offset < chunk.size ∧
      chunk.code.toList.drop offset = byte :: chunk.code.toList.drop (offset + 1) := by
  obtain ⟨hlt, rfl⟩ := Array.getElem?_eq_some_iff.1 h
  refine ⟨hlt, ?_⟩
  rw [List.drop_eq_getElem_cons (by simpa using hlt), Array.getElem_toList]

theorem drop_of_getElem?_none {chunk : Chunk} {offset : Nat} (h : chunk.code[offset]? = none) :
    chunk.code.toList.drop offset = [] := by
  rw [List.drop_eq_nil_iff, Array.length_toList]
  exact Array.getElem?_eq_none_iff.1 h

theorem dispatch_turnOf (chunk : Chunk) (offset : Nat) (m : Machine) :
    TurnOf chunk offset m (dispatch chunk (.running offset m)) := by
  simp only [dispatch]
  split
  · rename_i hbyte
    simp only [TurnOf, runAt, drop_of_getElem?_none hbyte, runFrom_nil]
  rename_i byte hbyte
  obtain ⟨hlt, hdrop⟩ := drop_of_getElem? hbyte
  split
  · rename_i hop
    simp only [TurnOf, runAt, hdrop, runFrom_unknown _ _ _ _ hop]
  · rename_i hop
    split
    · rename_i hindex
      simp only [TurnOf, runAt, hdrop, drop_of_getElem?_none hindex, runFrom_missing _ _ _ hop]
    · rename_i index hindex
      refine turnOf_progress Nat.two_pos hlt ?_
      rw [runAt, hdrop, (drop_of_getElem? hindex).2, runFrom_constant _ _ _ _ hop]
  · rename_i hop
    simp only [TurnOf, runAt, hdrop, runFrom_halt _ _ _ _ hop]
  · rename_i op hconstant hhalt hop
    refine turnOf_progress Nat.one_pos hlt ?_
    rw [runAt, hdrop, runFrom_instruction _ _ _ _ hop hconstant hhalt]

/-- The loop comes to an end, the end of the run, before its turns outnumber the bytes that are left
by more than one. -/
theorem dispatches_eq_runAt (chunk : Chunk) (n offset : Nat) (m : Machine)
    (h : chunk.size - offset < n) :
    dispatches chunk n (.running offset m) = .ended (runAt chunk offset m) := by
  induction n generalizing offset m with
  | zero => omega
  | succ n ih =>
    have hturn := dispatch_turnOf chunk offset m
    rw [dispatches]
    cases hdispatch : dispatch chunk (.running offset m) with
    | ended outcome =>
      rw [hdispatch] at hturn
      rw [dispatches_ended, hturn]
    | running next m' =>
      rw [hdispatch] at hturn
      obtain ⟨hnext, hlt, hrun⟩ := hturn
      rw [hrun]
      exact ih next m' (by omega)

/-! ### Whole runs -/

/-- A machine at the beginning of a run. -/
def begin (m : Machine) (chunk : Chunk) : Machine :=
  { m.note (.event (.runStarted chunk.size chunk.constants.size chunk.lines.latest.length)) with
    stack := [] }

theorem follows_begin (m : Machine) (chunk : Chunk) : m.Follows (m.begin chunk) :=
  (m.follows_event _).trans (follows_stack _ [])

@[simp]
theorem heap_begin (m : Machine) (chunk : Chunk) : (m.begin chunk).heap = m.heap := rfl

/-- A run that ends well leaves the machine as it is then. -/
theorem runChunk_of_ok {m m' : Machine} {chunk : Chunk}
    (h : runAt chunk 0 (m.begin chunk) = (m', .ok ())) :
    m.runChunk chunk = (m'.note (.event (.runEnded m'.heap.size)), .ok ()) := by
  have hrun : runFrom chunk 0 chunk.code.toList (m.begin chunk) = (m', .ok ()) := h
  rw [runChunk]
  simp only [begin] at hrun
  rw [hrun]

/-- A run that fails is reported and leaves the stack empty. -/
theorem runChunk_of_error {m m' : Machine} {chunk : Chunk} {e : RuntimeError}
    (h : runAt chunk 0 (m.begin chunk) = (m', .error e)) :
    m.runChunk chunk =
      ({ (m'.note (.event (.runFailed e.message e.line))).report e.render with stack := [] },
        .error e) := by
  have hrun : runFrom chunk 0 chunk.code.toList (m.begin chunk) = (m', .error e) := h
  rw [runChunk]
  simp only [begin] at hrun
  rw [hrun]

/-- A whole run has the result of its code. -/
theorem runChunk_snd (m : Machine) (chunk : Chunk) :
    (m.runChunk chunk).2 = (runAt chunk 0 (m.begin chunk)).2 := by
  cases hrun : runAt chunk 0 (m.begin chunk) with
  | mk m' result =>
    cases result with
    | ok _ => rw [runChunk_of_ok hrun]
    | error e => rw [runChunk_of_error hrun]

theorem reports_note_event (m : Machine) (e : Event) :
    (m.note (.event e)).journal.reports = m.journal.reports :=
  Journal.reports_push_event m.journal e

theorem reports_report (m : Machine) (text : String) :
    (m.report text).journal.reports = m.journal.reports ++ (text ++ "\n") :=
  Journal.reports_push_report m.journal text

/-! ### Texts -/

/-- A text that compiles is run as its chunk, by the machine with more in its journal. -/
theorem interpret_of_compile {m : Machine} {source : String} {chunk : Chunk}
    (h : compile m.heap.id.next source = .ok chunk) :
    ∃ m' : Machine, m.Follows m' ∧ m'.heap = m.heap ∧
      m.interpret source =
        ((m'.runChunk chunk).1, (m'.runChunk chunk).2.mapError Failure.runtime) := by
  have hentered := m.follows_note (.compileEntered source.utf8ByteSize) nofun
  have hcompiled := hentered.trans
    ((m.note _).follows_event (.compiled chunk.size chunk.constants.size))
  have hleft := hcompiled.trans (((m.note _).note _).follows_note .compileLeft nofun)
  refine ⟨_, hleft, rfl, ?_⟩
  have hnoting : m.compileNoting source =
      (((m.note (.compileEntered source.utf8ByteSize)).note
        (.event (.compiled chunk.size chunk.constants.size))).note .compileLeft, .ok chunk) := by
    have hcompile : compile (m.note (.compileEntered source.utf8ByteSize)).heap.id.next source =
        .ok chunk := h
    simp only [compileNoting, hcompile]
  rw [interpret, hnoting]
  simp only
  split <;> rename_i hrun <;> rw [hrun] <;> rfl

end Machine

end ExprMachine
