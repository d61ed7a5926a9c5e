import ExprMachine.Proofs.Forecast
import ExprMachine.Proofs.Placement

/-!
# The stack that a program needs

The walk over a program comes to its end exactly if the stack has room for what the tree needs, and
otherwise stops where the stack is full. The nesting that the parser allows never needs more than
the stack that a machine has by default.

* `foresee_stop_postOrder` — the walk over the code of a tree;
* `program_stop` — the walk over a whole program;
* `interpret_stack_need` — what that means for runs of texts.
-/

namespace ExprMachine

namespace Machine

variable {chunk : Chunk} {heap : Heap} {limit offset height : Nat} {rest : List UInt8}

/-! ### Steps of the walk -/

/-- Where an instruction finds its operands, the walk goes on if there is room for the result. -/
theorem foresee_instruction (op : OpCode) (hconstant : op ≠ .constant) (hhalt : op ≠ .halt)
    (hpops : op.pops ≤ height) :
    (foresee chunk heap limit offset height (op.toByte :: rest)).stop =
      if height - op.pops < limit then
        (foresee chunk heap limit (offset + 1) (height - op.pops + 1) rest).stop
      else .defect .stackOverflow := by
  rw [foresee, OpCode.ofByte?_toByte]
  simp only
  split
  · exact absurd rfl hconstant
  · exact absurd rfl hconstant
  · rw [if_neg (Nat.not_lt.2 hpops), if_neg hhalt]
    by_cases hfull : limit ≤ height - op.pops
    · rw [if_pos hfull, if_neg (Nat.not_lt.2 hfull)]
      rfl
    · rw [if_neg hfull, if_pos (Nat.lt_of_not_le hfull)]
      rfl

theorem foresee_push (op : OpCode) (hconstant : op ≠ .constant) (hpops : op.pops = 0) :
    (foresee chunk heap limit offset height (op.toByte :: rest)).stop =
      if height < limit then (foresee chunk heap limit (offset + 1) (height + 1) rest).stop
      else .defect .stackOverflow := by
  have hhalt : op ≠ .halt := by
    intro hop
    rw [hop] at hpops
    cases hpops
  rw [foresee_instruction op hconstant hhalt (by omega), hpops, Nat.sub_zero]

theorem foresee_replace (op : OpCode) (hhalt : op ≠ .halt) (hpops : 0 < op.pops)
    (hroom : height < limit) :
    (foresee chunk heap limit offset (height + op.pops) (op.toByte :: rest)).stop =
      (foresee chunk heap limit (offset + 1) (height + 1) rest).stop := by
  have hconstant : op ≠ .constant := by
    intro hop
    rw [hop] at hpops
    cases hpops
  rw [foresee_instruction op hconstant hhalt (Nat.le_add_left _ _), Nat.add_sub_cancel,
    if_pos hroom]

theorem foresee_constant {index : UInt8} (h : constantFault? chunk heap index = none) :
    (foresee chunk heap limit offset height (OpCode.constant.toByte :: index :: rest)).stop =
      if height < limit then (foresee chunk heap limit (offset + 2) (height + 1) rest).stop
      else .defect .stackOverflow := by
  rw [foresee, OpCode.ofByte?_toByte]
  simp only [h]
  by_cases hfull : limit ≤ height
  · rw [if_pos hfull, if_neg (Nat.not_lt.2 hfull)]
    rfl
  · rw [if_neg hfull, if_pos (Nat.lt_of_not_le hfull)]
    rfl

/-- A constant that the chunk itself can explain is no fault. -/
theorem constantFault?_eq_none {index : UInt8} {x : Literal}
    (h : chunk.constants[index.toNat]?.bind chunk.objects.literal? = some x) :
    constantFault? chunk heap index = none := by
  obtain ⟨v, hv, hx⟩ := Option.bind_eq_some_iff.1 h
  unfold constantFault?
  rw [hv]
  cases Heap.means_of_literal? hx with
  | nil | bool b | number z => rfl
  | string hs => simp [Heap.owns_eq_isSome_get? chunk.objects, hs]

/-! ### Trees -/

theorem foresee_stop_literal (height : Nat) (rest : List UInt8) {value : Literal} {index line : Nat}
    (hloaded : Loaded chunk offset index ((value.code index).map (·, line))
      (if value.isPooled then [value] else [])) :
    (foresee chunk heap limit offset height (value.code index ++ rest)).stop =
      if height < limit then
        (foresee chunk heap limit (offset + (value.code index).length) (height + 1) rest).stop
      else .defect .stackOverflow := by
  cases value with
  | nil => exact foresee_push .pushNil (by decide) rfl
  | bool b =>
    cases b with
    | false => exact foresee_push .pushFalse (by decide) rfl
    | true => exact foresee_push .pushTrue (by decide) rfl
  | number x | string bytes => exact foresee_constant (constantFault?_eq_none hloaded.constant)

/-- The code of an operator replaces two values by one. -/
theorem foresee_stop_binaryOp (op : BinaryOp) (hroom : height < limit) :
    (foresee chunk heap limit offset (height + 2) (op.code.map OpCode.toByte ++ rest)).stop =
      (foresee chunk heap limit (offset + op.code.length) (height + 1) rest).stop := by
  obtain ⟨code, hpops, hcode⟩ := op.code_cases
  have hhalt : code ≠ .halt := by
    intro hop
    rw [hop] at hpops
    cases hpops
  have hfirst (rest : List UInt8) :
      (foresee chunk heap limit offset (height + 2) (code.toByte :: rest)).stop =
        (foresee chunk heap limit (offset + 1) (height + 1) rest).stop := by
    rw [← hpops]
    exact foresee_replace code hhalt (by omega) hroom
  rcases hcode with hcode | hcode
  · rw [hcode]
    exact hfirst rest
  · rw [hcode]
    show (foresee chunk heap limit offset (height + 2)
      (code.toByte :: OpCode.not.toByte :: rest)).stop = _
    rw [hfirst]
    exact foresee_replace .not (by decide) Nat.one_pos hroom

/-- **The walk over the code of a tree** goes on behind it if there is room for what the tree needs,
and stops at a full stack otherwise. -/
theorem foresee_stop_postOrder (heap : Heap) (limit : Nat) (e : Expr) (index offset height : Nat)
    (rest : List UInt8) (hloaded : Loaded chunk offset index (e.postOrder index) e.pooled) :
    (foresee chunk heap limit offset height ((e.postOrder index).map Prod.fst ++ rest)).stop =
      if height + e.need ≤ limit then
        (foresee chunk heap limit (offset + (e.postOrder index).length) (height + 1) rest).stop
      else .defect .stackOverflow := by
  induction e generalizing index offset height rest with
  | literal value line =>
    rw [Expr.bytes_literal, Expr.length_postOrder_literal]
    exact foresee_stop_literal height rest hloaded
  | group inner line ih => exact ih index offset height rest hloaded
  | unary op operand ih =>
    rw [Expr.bytes_unary, Expr.length_postOrder_unary, ih index offset height _ hloaded.code_left,
      Expr.need]
    have hpos := operand.need_pos
    by_cases hneed : height + operand.need ≤ limit
    · rw [if_pos hneed, if_pos hneed]
      have hroom : height < limit := by omega
      cases op with
      | negate => exact foresee_replace .negate (by decide) Nat.one_pos hroom
      | not => exact foresee_replace .not (by decide) Nat.one_pos hroom
    · rw [if_neg hneed, if_neg hneed]
  | binary op left right ihl ihr =>
    have hoperands := hloaded.code_left
    rw [Expr.bytes_binary, Expr.length_postOrder_binary, ihl index offset height _ hoperands.left,
      ihr _ _ _ _ hoperands.right, ← Nat.add_assoc, ← Nat.add_assoc]
    have hpos := left.need_pos
    have hneed : height + (Expr.binary op left right).need ≤ limit ↔
        height + left.need ≤ limit ∧ height + 1 + right.need ≤ limit := by
      simp only [Expr.need]
      omega
    by_cases hleft : height + left.need ≤ limit
    · by_cases hright : height + 1 + right.need ≤ limit
      · rw [if_pos hleft, if_pos hright, if_pos (hneed.2 ⟨hleft, hright⟩)]
        exact foresee_stop_binaryOp op (by omega)
      · rw [if_pos hleft, if_neg hright, if_neg fun h => hright (hneed.1 h).2]
    · rw [if_neg hleft, if_neg fun h => hleft (hneed.1 h).1]

/-! ### Programs -/

/-- The walk over a program ends with the last instruction, or at a full stack. -/
theorem program_stop (e : Expr) (id : HeapId) (line : Nat) (hpool : e.pooled.length ≤ 256)
    (heap : Heap) (limit : Nat) :
    (foresee (e.program id line) heap limit 0 0 (e.program id line).code.toList).stop =
      if e.need ≤ limit then .ending 0 else .defect .stackOverflow := by
  have hwalk := foresee_stop_postOrder heap limit e 0 0 0 [OpCode.halt.toByte]
    (program_loaded e id line hpool)
  rw [Nat.zero_add] at hwalk
  rw [program_code, Expr.programCode, List.map_append]
  exact hwalk

/-- The strings among the constants of a program are its own. -/
theorem program_constant_heap {e : Expr} {id : HeapId} {line : Nat} {k : Handle}
    (h : .object k ∈ (e.program id line).constants) : k.heap = id := by
  have howns := Chunk.Pool.owns (program_constants e id line) h
  obtain ⟨s, hs⟩ := Heap.owns_iff_exists_get?.1 howns
  rw [Heap.id_of_get? hs, program_id]

/-- A program's run comes out as the walk over it foresees. -/
theorem program_comesTrue {m : Machine} {e : Expr} {id : HeapId} (line : Nat) (hid : id ≠ m.heap.id)
    (hroom : m.output.room = none) :
    (foresee (e.program id line) m.heap m.options.stackLimit 0 0
      (e.program id line).code.toList).ComesTrue (e.program id line) m
        (m.runChunk (e.program id line)) := by
  refine runChunk_comesTrue (program_inStep e id line) hroom ?_
  intro k hk hheap
  rw [program_constant_heap hk] at hheap
  exact absurd hheap hid

/-! ### Texts -/

/-- A run met no defect: it succeeded, or failed with a fault of kind, and its stack is empty. -/
inductive FreeOfDefects : Machine × Except Failure Unit → Prop
  | success {after : Machine} : after.stack = [] → FreeOfDefects (after, .ok ())
  | kind {after : Machine} {fault : Fault} {line : Option Nat} :
      fault.isDefect = false → after.stack = [] →
      FreeOfDefects (after, .error (.runtime ⟨fault.message, line⟩))

/-- A run failed at the first push that found the stack full, or before with a fault of kind. -/
inductive Overflows (f : Forecast) (chunk : Chunk) : Machine × Except Failure Unit → Prop
  | full {after : Machine} :
      Overflows f chunk
        (after, .error (.runtime ⟨Fault.stackOverflow.message, chunk.lines.lineAt? f.offset⟩))
  | kind {after : Machine} {offset : Nat} {op : OpCode} {fault : Fault} :
      (offset, op) ∈ f.passed → offset < f.offset → op.kindFault? = some fault →
      Overflows f chunk (after, .error (.runtime ⟨fault.message, chunk.lines.lineAt? offset⟩))

theorem freeOfDefects_of_comesTrue {f : Forecast} {m : Machine}
    {outcome : Machine × Except RuntimeError Unit} (hstop : f.stop = .ending 0)
    (h : f.ComesTrue chunk m outcome) :
    FreeOfDefects (outcome.1, outcome.2.mapError Failure.runtime) := by
  cases h with
  | ending hending hheight =>
    rw [hstop] at hending
    cases hending
    exact .success (List.length_eq_zero_iff.1 hheight)
  | failing hraises he hline hstack =>
    subst he
    cases hraises with
    | defect hdefect =>
      rw [hstop] at hdefect
      cases hdefect
    | kind hmem hkind => exact .kind (OpCode.isDefect_of_kindFault? hkind) hstack

theorem overflows_of_comesTrue {m : Machine} {outcome : Machine × Except RuntimeError Unit}
    (hstop : (foresee chunk heap limit 0 0 chunk.code.toList).stop = .defect .stackOverflow)
    (h : (foresee chunk heap limit 0 0 chunk.code.toList).ComesTrue chunk m outcome) :
    Overflows (foresee chunk heap limit 0 0 chunk.code.toList) chunk
      (outcome.1, outcome.2.mapError Failure.runtime) := by
  cases h with
  | ending hending =>
    rw [hstop] at hending
    cases hending
  | failing hraises he =>
    subst he
    cases hraises with
    | defect hdefect =>
      rw [hstop] at hdefect
      cases hdefect
      rw [Forecast.blamed_eq hstop (by decide)]
      exact .full
    | kind hmem hkind => exact .kind hmem (foresee_passed hmem).2.1 hkind

/-- **Compiled texts and the stack.** A text whose tree needs no more than the stack has room for is
run without any defect; if it needs more, the run fails, at the first push onto a full stack unless
a fault of kind comes first. What the parser accepts needs no more than its nesting, and that is at
most the room that a stack has by default. -/
theorem interpret_stack_need (m : Machine) (source : String) (chunk : Chunk)
    (hcompile : compile m.heap.id.next source = .ok chunk) (hroom : m.output.room = none) :
    ∃ e line, Writes source e line ∧ (∀ e' line', Writes source e' line' → e' = e) ∧
      (e.need ≤ m.options.stackLimit → FreeOfDefects (m.interpret source)) ∧
      (m.options.stackLimit < e.need →
        (foresee chunk m.heap m.options.stackLimit 0 0 chunk.code.toList).stop =
          .defect .stackOverflow ∧
        Overflows (foresee chunk m.heap m.options.stackLimit 0 0 chunk.code.toList) chunk
          (m.interpret source)) ∧
      e.need ≤ e.nest ∧ e.nest ≤ nestingLimit ∧
      nestingLimit = ({} : MachineOptions).stackLimit ∧
      (({} : MachineOptions).stackLimit ≤ m.options.stackLimit →
        FreeOfDefects (m.interpret source)) := by
  obtain ⟨e, line, hwrites, hwithin, rfl⟩ := compile_eq_ok_iff.1 hcompile
  obtain ⟨m', hfollows, hheap, hinterpret⟩ := interpret_of_compile hcompile
  have hcomes := program_comesTrue (e := e) line (hheap ▸ m.heap.id.next_ne)
    (hfollows.output_eq ▸ hroom)
  rw [hheap, hfollows.options_eq] at hcomes
  have hstop := program_stop e m.heap.id.next line hwithin.length_pooled_le m.heap
    m.options.stackLimit
  have hfits (h : e.need ≤ m.options.stackLimit) : FreeOfDefects (m.interpret source) := by
    rw [if_pos h] at hstop
    rw [hinterpret]
    exact freeOfDefects_of_comesTrue hstop hcomes
  have hneed : e.need ≤ nestingLimit := Nat.le_trans e.need_le_nest hwithin.nest_le
  refine ⟨e, line, hwrites, fun e' line' h => h.unique hwrites, hfits, ?_, e.need_le_nest,
    hwithin.nest_le, rfl, fun h => hfits (Nat.le_trans hneed h)⟩
  intro hexceeds
  rw [if_neg (Nat.not_le.2 hexceeds)] at hstop
  rw [hinterpret]
  exact ⟨hstop, overflows_of_comesTrue hstop hcomes⟩

/-- An equation needs two values on the stack; with room for one its second operand is too many. -/
theorem interpret_stack_need_full :
    let m := Machine.new ⟨0⟩ { stackLimit := 1 }
    let e := Expr.binary .equal (.literal .nil 1) (.literal .nil 1)
    compile m.heap.id.next "nil == nil" = .ok (e.program ⟨1⟩ 1) ∧ m.output.room = none ∧
      Overflows ⟨[(0, .pushNil)], 1, .defect .stackOverflow⟩ (e.program ⟨1⟩ 1)
        (m.interpret "nil == nil") := by
  intro m e
  obtain ⟨hwrites, hcompile⟩ : Writes "nil == nil" e 1 ∧
      compile m.heap.id.next "nil == nil" = .ok (e.program ⟨1⟩ 1) :=
    compile_of_parse ⟨1⟩ (by decide +kernel)
  obtain ⟨e', line, -, hunique, -, hfull, -⟩ := interpret_stack_need m _ _ hcompile rfl
  obtain rfl := hunique e 1 hwrites
  exact ⟨hcompile, rfl, (hfull (by decide)).2⟩

end Machine

end ExprMachine
