import ExprMachine.Assembly
import ExprMachine.Proofs.PostOrder

/-!
# What assembly statements add

Each statement adds code bytes of one line and at most one constant, whatever stands before it; only
the index that a new constant gets depends on that.

* `Statement.bytes`, `Statement.pooled` — the code and the constants of a statement;
* `apply_gains` — a statement that is accepted adds them; `apply_eq_ok` says when it is accepted;
* `addLines_gains`, `assemble_gains` — lines and whole listings only add to chunks.
-/

namespace ExprMachine.Assembly

/-! ### Statements -/

/-- The code bytes of a statement with `index` constants before it. -/
def Statement.bytes (index : Nat) : Statement → List UInt8
  | constant _ => []
  | byte b => [b]
  | .op code => [code.toByte]
  | pushIndex k => [OpCode.constant.toByte, k]
  | pushLiteral _ => [OpCode.constant.toByte, UInt8.ofNat index]

/-- The constants of a statement. -/
def Statement.pooled : Statement → List Literal
  | constant x => [x]
  | pushLiteral x => [x]
  | _ => []

/-- A literal that is loaded and becomes a constant is all that is added. -/
theorem load_gains (chunk : Chunk) (x : Literal) :
    Gains chunk ((load chunk x).2.addConstant (load chunk x).1) [] [x] := by
  cases x with
  | nil | bool b | number y => exact gains_addScalar chunk rfl fun _ => rfl
  | string bytes => exact gains_addString chunk bytes

theorem constants_load (chunk : Chunk) (x : Literal) :
    (load chunk x).2.constants = chunk.constants := by
  cases x <;> rfl

/-- A statement that is accepted adds its code, on one line, and its constants. -/
theorem apply_gains {statement : Statement} {chunk larger : Chunk} {line : Nat}
    (h : statement.apply chunk line = .ok larger) :
    Gains chunk larger ((statement.bytes chunk.constants.size).map (·, line)) statement.pooled := by
  cases statement with
  | constant x =>
    cases h
    exact load_gains chunk x
  | byte b =>
    cases h
    exact gains_write chunk b line
  | op code =>
    cases h
    exact gains_write chunk code.toByte line
  | pushIndex k =>
    cases h
    exact (gains_write chunk OpCode.constant.toByte line).trans (gains_write _ k line)
  | pushLiteral x =>
    simp only [Statement.apply] at h
    split at h
    · cases h
      have hcode := (gains_write ((load chunk x).2.addConstant (load chunk x).1)
        OpCode.constant.toByte line).trans
          (gains_write _ (UInt8.ofNat (load chunk x).2.constants.size) line)
      have hboth := (load_gains chunk x).trans hcode
      rw [constants_load] at hboth
      rw [Chunk.writeConstant, constants_load]
      exact hboth
    · cases h

/-- A statement is accepted unless it pushes a new constant whose index does not fit a byte. -/
theorem apply_eq_ok {statement : Statement} {chunk : Chunk} (line : Nat)
    (h : ∀ x, statement = .pushLiteral x → chunk.constants.size < constantLimit) :
    ∃ larger, statement.apply chunk line = .ok larger := by
  cases statement with
  | constant x => exact ⟨_, rfl⟩
  | byte b => exact ⟨_, rfl⟩
  | op code => exact ⟨_, rfl⟩
  | pushIndex k => exact ⟨_, rfl⟩
  | pushLiteral x =>
    have hroom : (load chunk x).2.constants.size < constantLimit := by
      rw [constants_load]
      exact h x rfl
    refine ⟨(load chunk x).2.writeConstant (load chunk x).1 line, ?_⟩
    simp only [Statement.apply]
    exact if_pos hroom

/-! ### Lines and listings -/

/-- Lines that are accepted only add to a chunk. -/
theorem addLines_gains {lines : List (List Char)} {chunk larger : Chunk} {number : Nat}
    (h : addLines chunk number lines = .ok larger) : ∃ code pool, Gains chunk larger code pool := by
  induction lines generalizing chunk number with
  | nil =>
    cases h
    exact ⟨[], [], gains_nothing _⟩
  | cons line rest ih =>
    simp only [addLines] at h
    cases hline : addLine chunk number line with
    | error fault =>
      rw [hline] at h
      cases h
    | ok next =>
      rw [hline] at h
      obtain ⟨code, pool, hrest⟩ := ih h
      unfold addLine at hline
      split at hline
      · cases hline
      · cases hline
        exact ⟨code, pool, hrest⟩
      · exact ⟨_, _, (apply_gains hline).trans hrest⟩

/-- Everything in an assembled chunk comes from its listing. -/
theorem assemble_gains {id : HeapId} {source : String} {chunk : Chunk}
    (h : assemble id source = .ok chunk) : ∃ code pool, Gains (.empty id) chunk code pool :=
  addLines_gains h

end ExprMachine.Assembly
