import ExprMachine.Proofs.Dispatch
import ExprMachine.Proofs.Evaluation
import ExprMachine.Proofs.Placement

/-!
# Running a text is evaluating its tree

The code of a tree leaves a value for what the tree evaluates to, on top of the stack that was there
before, or the run ends with the fault of the evaluation. The induction is on the tree, for code
that stands anywhere in a chunk and is followed by anything.

* `Machine.Performs` — what running the code of something came to;
* `postOrder_performs` — the code of a tree performs its evaluation;
* `interpret_evaluates` — the same of whole texts, with what is printed and reported.
-/

namespace ExprMachine

namespace Machine

/-! ### Pieces of a run -/

/-- What running the code of something came to: a value for a literal has been pushed on a stack,
and the run goes on with the rest of the code; or the run has ended with a fault, on a line. -/
inductive Performs (chunk : Chunk) (m : Machine) (stack : List Value) (offset : Nat)
    (rest : List UInt8) (outcome : Machine × Except RuntimeError Unit) :
    Except (Fault × Nat) Literal → Prop
  | value {m' : Machine} {v : Value} {x : Literal} :
      m.Follows m' → m'.stack = v :: stack → m'.heap.literal? v = some x →
      outcome = runFrom chunk offset rest m' → Performs chunk m stack offset rest outcome (.ok x)
  | fault {m' : Machine} {fault : Fault} {line : Nat} :
      m.Follows m' → outcome = (m', .error ⟨fault.message, some line⟩) →
      Performs chunk m stack offset rest outcome (.error (fault, line))

variable {chunk : Chunk} {stack : List Value} {offset line : Nat} {rest : List UInt8}

theorem Performs.follows {m m' : Machine} {outcome : Machine × Except RuntimeError Unit}
    {result : Except (Fault × Nat) Literal} (hfollows : m.Follows m')
    (h : Performs chunk m' stack offset rest outcome result) :
    Performs chunk m stack offset rest outcome result := by
  cases h with
  | value hlast hstack hv hrun => exact .value (hfollows.trans hlast) hstack hv hrun
  | fault hlast hrun => exact .fault (hfollows.trans hlast) hrun

/-- What goes on with the value of something, if it has one. -/
theorem Performs.bind {m : Machine} {outcome : Machine × Except RuntimeError Unit}
    {result : Except (Fault × Nat) Literal} {next : Literal → Except (Fault × Nat) Literal}
    {stack' : List Value} {offset' : Nat} {rest' : List UInt8}
    (h : Performs chunk m stack offset rest outcome result)
    (hnext : ∀ (m' : Machine) (v : Value) (x : Literal), m.Follows m' → m'.stack = v :: stack →
      m'.heap.literal? v = some x →
      Performs chunk m' stack' offset' rest' (runFrom chunk offset rest m') (next x)) :
    Performs chunk m stack' offset' rest' outcome (result >>= next) := by
  cases h with
  | @value m' v x hfollows hstack hv hrun =>
    rw [hrun]
    exact (hnext m' v x hfollows hstack hv).follows hfollows
  | fault hfollows hrun => exact .fault hfollows hrun

theorem proceed_performs {m m' : Machine} {width : Nat} {result : Except Fault Literal}
    {outcome : Outcome} (hline : chunk.lines.lineAt? offset = some line) (hfollows : m.Follows m')
    (h : m'.Yields stack result outcome) :
    Performs chunk m stack (offset + width) rest (proceed chunk offset width rest outcome)
      (result.mapError (·, line)) := by
  cases h with
  | value hlast hstack hv => exact .value (hfollows.trans hlast) hstack hv rfl
  | @fault last fault hlast =>
    refine .fault ((hfollows.trans hlast).trans (follows_fail chunk offset last fault)) ?_
    rw [← hline]
    rfl

theorem instruction_performs {m : Machine} {op : OpCode} {result : Except Fault Literal}
    (hconstant : op ≠ .constant) (hhalt : op ≠ .halt)
    (hline : chunk.lines.lineAt? offset = some line)
    (h : (m.trace chunk offset).Yields stack result ((m.trace chunk offset).execute op)) :
    Performs chunk m stack (offset + 1) rest (runFrom chunk offset (op.toByte :: rest) m)
      (result.mapError (·, line)) := by
  rw [runFrom_instruction _ _ _ _ (OpCode.ofByte?_toByte op) hconstant hhalt]
  exact proceed_performs hline (m.follows_trace chunk offset) h

/-! ### Operators -/

/-- After a value the instruction `NOT` makes its negation. -/
theorem Performs.negation {m : Machine} {result : Except Fault Literal}
    {outcome : Machine × Except RuntimeError Unit}
    (hline : chunk.lines.lineAt? offset = some line) (hroom : stack.length < m.options.stackLimit)
    (h : Performs chunk m stack offset (OpCode.not.toByte :: rest) outcome
      (result.mapError (·, line))) :
    Performs chunk m stack (offset + 1) rest outcome
      ((result.map Literal.negation).mapError (·, line)) := by
  cases result with
  | error fault =>
    cases h with
    | fault hfollows hrun => exact .fault hfollows hrun
  | ok x =>
    cases h with
    | value hfollows hstack hv hrun =>
      rw [hrun]
      rw [← hfollows.options_eq] at hroom
      refine .follows hfollows (instruction_performs (by decide) (by decide) hline ?_)
      exact execute_unary_yields .not (by simpa using hv) (by simpa using hstack)
        (by simpa using hroom)

/-- The code of an operator on two values. -/
theorem binaryOp_performs {m : Machine} (op : BinaryOp) {v w : Value} {x y : Literal}
    (hstack : m.stack = w :: v :: stack) (hroom : stack.length < m.options.stackLimit)
    (hv : m.heap.literal? v = some x) (hw : m.heap.literal? w = some y)
    (hlines : ∀ i < op.code.length, chunk.lines.lineAt? (offset + i) = some line) :
    Performs chunk m stack (offset + op.code.length) rest
      (runFrom chunk offset (op.code.map OpCode.toByte ++ rest) m)
      ((op.apply x y).mapError (·, line)) := by
  rw [← stack_trace m chunk offset] at hstack
  rw [← options_trace m chunk offset] at hroom
  rw [← heap_trace m chunk offset] at hv hw
  obtain ⟨code, result, hpops, hyields, hcode⟩ := execute_binary_yields hv hw op hstack hroom
  have hconstant : code ≠ .constant := by
    intro hcode
    rw [hcode] at hpops
    cases hpops
  have hhalt : code ≠ .halt := by
    intro hcode
    rw [hcode] at hpops
    cases hpops
  rw [options_trace] at hroom
  rcases hcode with ⟨hcode, happly⟩ | ⟨hcode, happly⟩
  · rw [hcode] at hlines ⊢
    rw [happly]
    exact instruction_performs hconstant hhalt (hlines 0 Nat.one_pos) hyields
  · -- the operator is the negation of another one
    rw [hcode] at hlines ⊢
    rw [happly]
    have hfirst : Performs chunk m stack (offset + 1) (OpCode.not.toByte :: rest) _
        (result.mapError (·, line)) :=
      instruction_performs hconstant hhalt (hlines 0 Nat.two_pos) hyields
    exact hfirst.negation (hlines 1 Nat.one_lt_two) hroom

/-! ### Trees -/

/-- The code of a literal pushes it. -/
theorem literal_performs (rest : List UInt8) {m : Machine} {value : Literal} {index : Nat}
    (hcounted : chunk.lines.Counted) (hid : chunk.objects.id ≠ m.heap.id)
    (hloaded : Loaded chunk offset index ((value.code index).map (·, line))
      (if value.isPooled then [value] else []))
    (hroom : m.stack.length < m.options.stackLimit) :
    Performs chunk m m.stack (offset + (value.code index).length) rest
      (runFrom chunk offset (value.code index ++ rest) m) (.ok value) := by
  have hline : chunk.lines.lineAt? offset = some line := by
    obtain ⟨byte, more, hcode⟩ : ∃ byte more, value.code index = byte :: more := by
      cases value <;> exact ⟨_, _, rfl⟩
    rw [hcode] at hloaded
    exact hloaded.lineAt? hcounted (i := 0) rfl
  have hpush (op : OpCode) {v : Value} (hconstant : op ≠ .constant) (hhalt : op ≠ .halt)
      (hexecute : (m.trace chunk offset).execute op = (m.trace chunk offset).push v)
      (hv : (m.trace chunk offset).heap.literal? v = some value) :
      Performs chunk m m.stack (offset + 1) rest (runFrom chunk offset (op.toByte :: rest) m)
        (Except.mapError (·, line) (.ok value)) := by
    refine instruction_performs hconstant hhalt hline ?_
    rw [hexecute]
    exact push_yields (.refl _) (m.stack_trace chunk offset) (by rwa [options_trace]) hv
  have hconstant (hpooled : value.isPooled = true) :
      Performs chunk m m.stack (offset + 2) rest
        (runFrom chunk offset (OpCode.constant.toByte :: UInt8.ofNat index :: rest) m)
        (Except.mapError (·, line) (.ok value)) := by
    rw [if_pos hpooled] at hloaded
    have hyields := (m.trace chunk offset).pushConstant_yields hloaded.constant
    simp only [heap_trace, stack_trace, options_trace] at hyields
    rw [runFrom_constant _ _ _ _ (OpCode.ofByte?_toByte .constant)]
    exact proceed_performs hline (m.follows_trace chunk offset) (hyields hid hroom)
  cases value with
  | nil => exact hpush .pushNil (by decide) (by decide) rfl rfl
  | bool b =>
    cases b with
    | false => exact hpush .pushFalse (by decide) (by decide) rfl rfl
    | true => exact hpush .pushTrue (by decide) (by decide) rfl rfl
  | number x => exact hconstant rfl
  | string bytes => exact hconstant rfl

/-- **The code of a tree performs its evaluation.** -/
theorem postOrder_performs (hcounted : chunk.lines.Counted) (e : Expr) (index offset : Nat)
    (rest : List UInt8) (m : Machine) (hid : chunk.objects.id ≠ m.heap.id)
    (hloaded : Loaded chunk offset index (e.postOrder index) e.pooled)
    (hroom : m.stack.length + e.need ≤ m.options.stackLimit) :
    Performs chunk m m.stack (offset + (e.postOrder index).length) rest
      (runFrom chunk offset ((e.postOrder index).map Prod.fst ++ rest) m) e.eval := by
  induction e generalizing index offset rest m with
  | literal value line =>
    have hperforms := literal_performs rest hcounted hid hloaded hroom
    rwa [Expr.bytes_literal, Expr.length_postOrder_literal]
  | group inner line ih => exact ih index offset rest m hid hloaded hroom
  | unary op operand ih =>
    rw [Expr.postOrder_unary] at hloaded
    have hline := hloaded.lineAt?_instructions [op.code] hcounted Nat.one_pos
    have hoperand := ih index offset (op.code.toByte :: rest) m hid hloaded.code_left hroom
    have hpush : m.stack.length < m.options.stackLimit :=
      Nat.lt_of_lt_of_le (Nat.lt_add_of_pos_right (Expr.need_pos _)) hroom
    rw [Expr.bytes_unary, Expr.length_postOrder_unary, Expr.eval]
    refine hoperand.bind ?_
    intro m' v x hfollows hstack hv
    rw [← hfollows.options_eq] at hpush
    have hyields : (m'.trace chunk (offset + (operand.postOrder index).length)).Yields m.stack
        (op.apply x) _ :=
      execute_unary_yields op (by simpa using hv) (by simpa using hstack) (by simpa using hpush)
    exact instruction_performs (by cases op <;> decide) (by cases op <;> decide) hline hyields
  | binary op left right ihl ihr =>
    have hpush : m.stack.length < m.options.stackLimit :=
      Nat.lt_of_lt_of_le (Nat.lt_add_of_pos_right (Expr.need_pos _)) hroom
    have hleft : m.stack.length + left.need ≤ m.options.stackLimit :=
      Nat.le_trans (Nat.add_le_add_left (Nat.le_max_left _ _) _) hroom
    have hright : m.stack.length + (right.need + 1) ≤ m.options.stackLimit :=
      Nat.le_trans (Nat.add_le_add_left (Nat.le_max_right _ _) _) hroom
    have hoperands := hloaded.code_left
    rw [Expr.bytes_binary, Expr.length_postOrder_binary, ← Nat.add_assoc, ← Nat.add_assoc,
      Expr.eval]
    refine (ihl index offset _ m hid hoperands.left hleft).bind ?_
    intro m₁ v x hfollows₁ hstack₁ hv
    -- the value of the left operand waits on the stack while the right operand is evaluated
    have hid₁ : chunk.objects.id ≠ m₁.heap.id := by rwa [hfollows₁.heap_extends.id_eq]
    have hroom₁ : m₁.stack.length + right.need ≤ m₁.options.stackLimit := by
      rw [hstack₁, hfollows₁.options_eq, List.length_cons]
      omega
    refine (ihr _ _ _ m₁ hid₁ hoperands.right hroom₁).bind ?_
    intro m₂ w y hfollows₂ hstack₂ hw
    have hv' : m₂.heap.literal? v = some x :=
      Heap.literal?_of_extends hfollows₂.heap_extends hv
    rw [hstack₁] at hstack₂
    rw [← hfollows₁.options_eq, ← hfollows₂.options_eq] at hpush
    refine binaryOp_performs op hstack₂ hpush hv' hw ?_
    intro i hlt
    rw [Expr.postOrder_binary] at hloaded
    have hline := hloaded.lineAt?_instructions op.code hcounted hlt
    rwa [List.length_append, ← Nat.add_assoc] at hline

/-! ### Whole texts -/

/-- A program performs the evaluation of its tree, and then its last instruction is due. -/
theorem program_performs {m : Machine} {e : Expr} {id : HeapId} (line : Nat)
    (hid : id ≠ m.heap.id) (hpool : e.pooled.length ≤ 256) (hstack : m.stack = [])
    (hneed : e.need ≤ m.options.stackLimit) :
    Performs (e.program id line) m [] (e.postOrder 0).length [OpCode.halt.toByte]
      (runAt (e.program id line) 0 m) e.eval := by
  have hperforms := postOrder_performs (program_inStep e id line).counted e 0 0
    [OpCode.halt.toByte] m (by rwa [program_id]) (program_loaded e id line hpool)
    (by rwa [hstack, List.length_nil, Nat.zero_add])
  rw [hstack, Nat.zero_add] at hperforms
  rw [runAt, List.drop_zero, program_code, Expr.programCode, List.map_append]
  exact hperforms

/-- The last instruction ends a run well and prints the value on top. -/
theorem runFrom_last (chunk : Chunk) (offset : Nat) (rest : List UInt8) {m : Machine} {v : Value}
    {stack : List Value} (hstack : m.stack = v :: stack) (hroom : m.output.room = none) :
    ∃ m' : Machine, runFrom chunk offset (OpCode.halt.toByte :: rest) m = (m', .ok ()) ∧
      m'.stack = stack ∧
      m'.output = { m.output with
        written := m.output.written ++ (m.heap.written v ++ [lineFeed]) } ∧
      m'.journal.reports = m.journal.reports := by
  rw [← stack_trace m chunk offset] at hstack
  rw [← output_trace m chunk offset] at hroom
  rw [runFrom_halt _ _ _ _ (OpCode.ofByte?_toByte .halt), execute_halt hstack hroom, conclude]
  refine ⟨_, rfl, rfl, ?_, (m.follows_trace chunk offset).reports_eq⟩
  rw [output_trace, heap_trace]

/-- **A text runs as its tree evaluates.** If the evaluation has a value, the run succeeds and
prints it on a line of its own; otherwise it fails with the message of the first fault, on the line
where the last operand of the faulty operator ends, and prints nothing. In both cases the stack is
empty then. -/
theorem interpret_evaluates (m : Machine) (source : String) (chunk : Chunk)
    (hcompile : compile m.heap.id.next source = .ok chunk) (hlimit : 256 ≤ m.options.stackLimit)
    (hroom : m.output.room = none) :
    ∃ e line, Writes source e line ∧ (∀ e' line', Writes source e' line' → e' = e) ∧
      (m.interpret source).1.stack = [] ∧
      match e.eval with
      | .ok x =>
        (m.interpret source).2 = .ok () ∧
          (m.interpret source).1.output = { m.output with
            written := m.output.written ++ (x.written ++ [lineFeed]) } ∧
          (m.interpret source).1.journal.reports = m.journal.reports
      | .error (fault, place) =>
        (m.interpret source).2 = .error (.runtime ⟨fault.message, some place⟩) ∧
          (m.interpret source).1.output = m.output ∧
          (m.interpret source).1.journal.reports = m.journal.reports ++
            (RuntimeError.render ⟨fault.message, some place⟩ ++ "\n") := by
  obtain ⟨e, line, hwrites, hwithin, rfl⟩ := compile_eq_ok_iff.1 hcompile
  obtain ⟨m₁, hfollows₁, hheap, hinterpret⟩ := interpret_of_compile hcompile
  refine ⟨e, line, hwrites, fun e' line' h => h.unique hwrites, ?_⟩
  have hbegin := hfollows₁.trans (m₁.follows_begin (e.program m.heap.id.next line))
  have hneed : e.need ≤ m.options.stackLimit :=
    Nat.le_trans (Nat.le_trans e.need_le_nest hwithin.nest_le) hlimit
  have hperforms := program_performs (m := m₁.begin (e.program m.heap.id.next line)) line
    (by rw [heap_begin, hheap]; exact m.heap.id.next_ne) hwithin.length_pooled_le rfl
    (by rwa [hbegin.options_eq])
  rw [hinterpret]
  cases heval : e.eval with
  | ok x =>
    rw [heval] at hperforms
    cases hperforms with
    | value hfollows hstack hv hrun =>
      have hlast := hbegin.trans hfollows
      obtain ⟨m₃, hend, hempty, houtput, hreports⟩ := runFrom_last (e.program m.heap.id.next line)
        (e.postOrder 0).length [] hstack (by rw [hlast.output_eq, hroom])
      rw [hend] at hrun
      rw [runChunk_of_ok hrun]
      rw [hlast.output_eq, Heap.written_of_literal? hv] at houtput
      refine ⟨hempty, rfl, houtput, ?_⟩
      rw [reports_note_event, hreports, hlast.reports_eq]
  | error found =>
    rw [heval] at hperforms
    cases hperforms with
    | fault hfollows hrun =>
      have hlast := hbegin.trans hfollows
      rw [runChunk_of_error hrun]
      refine ⟨rfl, rfl, hlast.output_eq, ?_⟩
      rw [reports_report, reports_note_event, hlast.reports_eq]

/-- Two strings are joined and printed. -/
theorem interpret_evaluates_joined :
    let m := Machine.new ⟨0⟩ {}
    let e := Expr.binary .add (.literal (.string [97]) 1) (.literal (.string [98]) 1)
    compile m.heap.id.next "\"a\" + \"b\"" = .ok (e.program ⟨1⟩ 1) ∧
      256 ≤ m.options.stackLimit ∧ m.output.room = none ∧
      (m.interpret "\"a\" + \"b\"").1.output.written = #[97, 98, 10] := by
  intro m e
  obtain ⟨hwrites, hcompile⟩ : Writes "\"a\" + \"b\"" e 1 ∧
      compile m.heap.id.next "\"a\" + \"b\"" = .ok (e.program ⟨1⟩ 1) :=
    compile_of_parse ⟨1⟩ (by decide +kernel)
  refine ⟨hcompile, Nat.le_refl 256, rfl, ?_⟩
  obtain ⟨e', line, -, hunique, -, hresult⟩ :=
    interpret_evaluates m _ _ hcompile (Nat.le_refl 256) rfl
  obtain rfl := hunique e 1 hwrites
  exact congrArg Sink.written hresult.2.1

end Machine

end ExprMachine
