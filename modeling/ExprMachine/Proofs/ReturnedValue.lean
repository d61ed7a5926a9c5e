import ExprMachine.Proofs.Comparisons
import ExprMachine.Proofs.Effects

/-!
# The value that a run returns

The code of a tree leads the loop from its first byte to the one behind it and leaves the tree's
value on the stack. At the end of a program that one is the last instruction, so the run of a text
returns what its tree evaluates to; and what is returned is what is printed.

* `Machine.Leads` — turns that come to an offset with one value more on the stack;
* `Machine.postOrder_leads` — the code of a tree leads to the value of the tree;
* `Machine.ReturnsFrom` — interpreting a text returns a value; `Machine.Answers` — and prints it;
* `Machine.returnsFrom_of_eval` — a text returns what its tree evaluates to;
* `Machine.answers_of_returnsFrom` — it prints what it returns.
-/

namespace ExprMachine

/-! ### Trees that have a value -/

section Trees

variable {x z : Literal}

theorem eq_ok_of_mapError {ε ε' α : Type} {f : ε → ε'} {r : Except ε α} {a : α}
    (h : r.mapError f = .ok a) : r = .ok a := by
  cases r with
  | error e => cases h
  | ok b =>
    cases h
    rfl

theorem Expr.eval_unary_eq_ok {op : UnaryOp} {operand : Expr}
    (h : (Expr.unary op operand).eval = .ok z) :
    ∃ x, operand.eval = .ok x ∧ op.apply x = .ok z := by
  rw [Expr.eval] at h
  cases hx : operand.eval with
  | error found =>
    rw [hx] at h
    cases h
  | ok x =>
    rw [hx] at h
    exact ⟨x, rfl, eq_ok_of_mapError h⟩

theorem Expr.eval_binary_eq_ok {op : BinaryOp} {left right : Expr}
    (h : (Expr.binary op left right).eval = .ok z) :
    ∃ x y, left.eval = .ok x ∧ right.eval = .ok y ∧ op.apply x y = .ok z := by
  rw [Expr.eval] at h
  cases hx : left.eval with
  | error found =>
    rw [hx] at h
    cases h
  | ok x =>
    cases hy : right.eval with
    | error found =>
      rw [hx, hy] at h
      cases h
    | ok y =>
      rw [hx, hy] at h
      exact ⟨x, y, rfl, rfl, eq_ok_of_mapError h⟩

end Trees

/-! ### Fetching the code of a tree -/

section Fetching

variable {chunk : Chunk} {offset : Nat} {op : OpCode} {index : UInt8}

theorem Chunk.fetch_instruction (h : chunk.code[offset]? = some op.toByte)
    (hconstant : op ≠ .constant) : chunk.fetch offset = .instruction op := by
  simp only [fetch, h, OpCode.ofByte?_toByte]

theorem Chunk.fetch_constant (h : chunk.code[offset]? = some OpCode.constant.toByte)
    (hindex : chunk.code[offset + 1]? = some index) : chunk.fetch offset = .constant index := by
  simp only [fetch, h, OpCode.ofByte?_toByte, hindex]

/-- The bytes of a part of the code. -/
theorem Chunk.getElem?_of_partAt {bytes : List UInt8} (h : PartAt chunk.code.toList offset bytes)
    {i : Nat} (hlt : i < bytes.length) : chunk.code[offset + i]? = bytes[i]? := by
  rw [← Array.getElem?_toList]
  exact h.getElem? hlt

theorem Chunk.getElem?_of_partAt_cons {byte : UInt8} {bytes : List UInt8}
    (h : PartAt chunk.code.toList offset (byte :: bytes)) : chunk.code[offset]? = some byte :=
  Chunk.getElem?_of_partAt h (Nat.succ_pos _)

end Fetching

namespace Machine

/-! ### Turns that leave a value -/

/-- From a turn at an offset the loop comes to a turn at the next one, where a value for a literal
has been pushed on a stack. -/
inductive Leads (chunk : Chunk) (offset : Nat) (m : Machine) (next : Nat) (stack : List Value)
    (x : Literal) : Prop
  | intro {m' : Machine} {v : Value} (turns : Nat) :
      dispatches chunk turns (.running offset m) = .running next m' → m.Follows m' →
      m'.stack = v :: stack → m'.heap.literal? v = some x → Leads chunk offset m next stack x

theorem dispatches_add (chunk : Chunk) (j k : Nat) (p : Progress) :
    dispatches chunk (j + k) p = dispatches chunk k (dispatches chunk j p) := by
  induction j generalizing p with
  | zero => rw [Nat.zero_add, dispatches]
  | succ j ih => rw [Nat.succ_add, dispatches, ih, dispatches]

/-- The outcome that the turns come to is that of the run. -/
theorem runAt_of_dispatches {start : Machine} {chunk : Chunk} {k : Nat}
    {outcome : Machine × Except RuntimeError Unit}
    (h : dispatches chunk k (start.start chunk) = .ended outcome) :
    runAt chunk 0 (start.begin chunk) = outcome := by
  have hend := dispatches_start start chunk (n := k + (chunk.size + 1)) (by omega)
  rw [dispatches_add, h, dispatches_ended] at hend
  cases hend
  rfl

section Pieces

variable {chunk : Chunk} {offset next : Nat} {m : Machine} {stack : List Value} {x : Literal}

/-- The turns after those that have left a value. -/
theorem Leads.bind (h : Leads chunk offset m next stack x) {next' : Nat} {stack' : List Value}
    {y : Literal} (hnext : ∀ (m' : Machine) (v : Value), m.Follows m' → m'.stack = v :: stack →
      m'.heap.literal? v = some x → Leads chunk next m' next' stack' y) :
    Leads chunk offset m next' stack' y := by
  obtain ⟨first, hfirst, hfollows, hstack, hv⟩ := h
  obtain ⟨second, hsecond, hfollows', hstack', hw⟩ := hnext _ _ hfollows hstack hv
  refine .intro (first + second) ?_ (hfollows.trans hfollows') hstack' hw
  rw [dispatches_add, hfirst, hsecond]

/-- A turn whose instruction yields a value. -/
theorem leads_of_yields {width : Nat} {outcome : Outcome}
    (hturn : dispatch chunk (.running offset m) = outcome.progress chunk offset width)
    (h : (m.trace chunk offset).Yields stack (.ok x) outcome) :
    Leads chunk offset m (offset + width) stack x := by
  cases h with
  | value hfollows hstack hv =>
    exact .intro 1 hturn ((m.follows_trace chunk offset).trans hfollows) hstack hv

theorem instruction_leads {op : OpCode} (hcode : chunk.code[offset]? = some op.toByte)
    (hconstant : op ≠ .constant) (hhalt : op ≠ .halt)
    (h : (m.trace chunk offset).Yields stack (.ok x) ((m.trace chunk offset).execute op)) :
    Leads chunk offset m (offset + 1) stack x := by
  refine leads_of_yields ?_ h
  rw [dispatch_running, Chunk.fetch_instruction hcode hconstant, obey_instruction _ _ _ hhalt]

/-! ### Trees -/

/-- The code of a literal. -/
theorem literal_leads {value : Literal} {index line : Nat}
    (hcode : PartAt chunk.code.toList offset (value.code index))
    (hloaded : Loaded chunk offset index ((value.code index).map (·, line))
      (if value.isPooled then [value] else []))
    (hid : chunk.objects.id ≠ m.heap.id) (hroom : m.stack.length < m.options.stackLimit) :
    Leads chunk offset m (offset + (value.code index).length) m.stack value := by
  have hpush (op : OpCode) {v : Value} (hop : value.code index = [op.toByte])
      (hconstant : op ≠ .constant) (hhalt : op ≠ .halt)
      (hexecute : (m.trace chunk offset).execute op = (m.trace chunk offset).push v)
      (hv : (m.trace chunk offset).heap.literal? v = some value) :
      Leads chunk offset m (offset + 1) m.stack value := by
    rw [hop] at hcode
    refine instruction_leads (Chunk.getElem?_of_partAt_cons hcode) hconstant hhalt ?_
    rw [hexecute]
    exact push_yields (.refl _) (m.stack_trace chunk offset) (by rwa [options_trace]) hv
  have hpooled (hpooled : value.isPooled = true)
      (hbytes : value.code index = [OpCode.constant.toByte, UInt8.ofNat index]) :
      Leads chunk offset m (offset + 2) m.stack value := by
    rw [hbytes] at hcode
    rw [if_pos hpooled] at hloaded
    have hyields := (m.trace chunk offset).pushConstant_yields hloaded.constant
    simp only [heap_trace, stack_trace, options_trace] at hyields
    refine leads_of_yields ?_ (hyields hid hroom)
    rw [dispatch_running, Chunk.fetch_constant (Chunk.getElem?_of_partAt_cons hcode)
      (Chunk.getElem?_of_partAt hcode Nat.one_lt_two)]
    rfl
  cases value with
  | nil => exact hpush .pushNil rfl (by decide) (by decide) rfl rfl
  | bool b =>
    cases b with
    | false => exact hpush .pushFalse rfl (by decide) (by decide) rfl rfl
    | true => exact hpush .pushTrue rfl (by decide) (by decide) rfl rfl
  | number x => exact hpooled rfl rfl
  | string bytes => exact hpooled rfl rfl

/-- The code of an operator on two values, if it has a result. -/
theorem binaryOp_leads (op : BinaryOp) {v w : Value} {y z : Literal}
    (hcode : PartAt chunk.code.toList offset (op.code.map OpCode.toByte))
    (hstack : m.stack = w :: v :: stack) (hroom : stack.length < m.options.stackLimit)
    (hv : m.heap.literal? v = some x) (hw : m.heap.literal? w = some y)
    (happly : op.apply x y = .ok z) :
    Leads chunk offset m (offset + op.code.length) stack z := by
  rw [← stack_trace m chunk offset] at hstack
  rw [← options_trace m chunk offset] at hroom
  rw [← heap_trace m chunk offset] at hv hw
  obtain ⟨code, result, hpops, hyields, hcodes⟩ := execute_binary_yields hv hw op hstack hroom
  have hconstant : code ≠ .constant := by
    intro heq
    rw [heq] at hpops
    cases hpops
  have hhalt : code ≠ .halt := by
    intro heq
    rw [heq] at hpops
    cases hpops
  rw [options_trace] at hroom
  rcases hcodes with ⟨hcodes, hresult⟩ | ⟨hcodes, hresult⟩
  · rw [hcodes] at hcode ⊢
    rw [happly] at hresult
    rw [← hresult] at hyields
    exact instruction_leads (Chunk.getElem?_of_partAt_cons hcode) hconstant hhalt hyields
  · -- the operator is the negation of another one, which has a result too
    rw [hcodes] at hcode ⊢
    rw [happly] at hresult
    cases result with
    | error fault => cases hresult
    | ok z' =>
      cases hresult
      refine (instruction_leads (Chunk.getElem?_of_partAt_cons hcode) hconstant hhalt
        hyields).bind ?_
      intro m' u hfollows hstack' hu
      rw [← hfollows.options_eq] at hroom
      exact instruction_leads (Chunk.getElem?_of_partAt hcode Nat.one_lt_two) (by decide)
        (by decide) (execute_unary_yields .not (by simpa using hu) (by simpa using hstack')
          (by simpa using hroom))

/-- **The code of a tree leads to its value.** -/
theorem postOrder_leads (e : Expr) (index offset : Nat) (rest : List UInt8) (m : Machine)
    {x : Literal} (heval : e.eval = .ok x) (hid : chunk.objects.id ≠ m.heap.id)
    (hcode : PartAt chunk.code.toList offset ((e.postOrder index).map Prod.fst ++ rest))
    (hloaded : Loaded chunk offset index (e.postOrder index) e.pooled)
    (hroom : m.stack.length + e.need ≤ m.options.stackLimit) :
    Leads chunk offset m (offset + (e.postOrder index).length) m.stack x := by
  have hpush : m.stack.length < m.options.stackLimit :=
    Nat.lt_of_lt_of_le (Nat.lt_add_of_pos_right e.need_pos) hroom
  induction e generalizing index offset rest m x with
  | literal value line =>
    cases heval
    rw [Expr.length_postOrder_literal]
    rw [Expr.bytes_literal] at hcode
    exact literal_leads hcode.left hloaded hid hpush
  | group inner line ih => exact ih index offset rest m heval hid hcode hloaded hroom hpush
  | unary op operand ih =>
    obtain ⟨y, hy, happly⟩ := Expr.eval_unary_eq_ok heval
    rw [Expr.bytes_unary] at hcode
    rw [Expr.length_postOrder_unary, ← Nat.add_assoc]
    refine (ih index offset _ m hy hid hcode hloaded.code_left hroom hpush).bind ?_
    intro m' v hfollows hstack hv
    rw [← hfollows.options_eq] at hpush
    have hbyte := hcode.right
    rw [List.length_map] at hbyte
    refine instruction_leads (Chunk.getElem?_of_partAt_cons hbyte) (by cases op <;> decide)
      (by cases op <;> decide) ?_
    rw [← happly]
    exact execute_unary_yields op (by simpa using hv) (by simpa using hstack)
      (by simpa using hpush)
  | binary op left right ihl ihr =>
    obtain ⟨y, z, hy, hz, happly⟩ := Expr.eval_binary_eq_ok heval
    have hoperands := hloaded.code_left
    have hleft : m.stack.length + left.need ≤ m.options.stackLimit :=
      Nat.le_trans (Nat.add_le_add_left (Nat.le_max_left _ _) _) hroom
    have hright : m.stack.length + (right.need + 1) ≤ m.options.stackLimit :=
      Nat.le_trans (Nat.add_le_add_left (Nat.le_max_right _ _) _) hroom
    rw [Expr.bytes_binary] at hcode
    have hrightcode := hcode.right
    have hopcode := hrightcode.right
    rw [List.length_map] at hrightcode hopcode
    rw [List.length_map] at hopcode
    rw [Expr.length_postOrder_binary, ← Nat.add_assoc, ← Nat.add_assoc]
    refine (ihl index offset _ m hy hid hcode hoperands.left hleft hpush).bind ?_
    intro m₁ v hfollows₁ hstack₁ hv
    -- the value of the left operand waits on the stack while the right operand is evaluated
    have hid₁ : chunk.objects.id ≠ m₁.heap.id := by rwa [hfollows₁.heap_extends.id_eq]
    have hroom₁ : m₁.stack.length + right.need ≤ m₁.options.stackLimit := by
      rw [hstack₁, hfollows₁.options_eq, List.length_cons]
      omega
    have hpush₁ : m₁.stack.length < m₁.options.stackLimit :=
      Nat.lt_of_lt_of_le (Nat.lt_add_of_pos_right right.need_pos) hroom₁
    refine (ihr _ _ _ m₁ hz hid₁ hrightcode hoperands.right hroom₁ hpush₁).bind ?_
    intro m₂ w hfollows₂ hstack₂ hw
    have hv' : m₂.heap.literal? v = some y := Heap.literal?_of_extends hfollows₂.heap_extends hv
    rw [hstack₁] at hstack₂
    rw [← hfollows₁.options_eq, ← hfollows₂.options_eq] at hpush
    exact binaryOp_leads op hopcode.left hstack₂ hpush hv' hw happly

end Pieces

/-! ### Whole texts -/

/-- The program of a tree returns the value of the tree. -/
theorem returns_of_eval (start : Machine) {e : Expr} {id : HeapId} (line : Nat) {x : Literal}
    (heval : e.eval = .ok x) (hid : id ≠ start.heap.id) (hpool : e.pooled.length ≤ 256)
    (hneed : e.need ≤ start.options.stackLimit) : start.Returns (e.program id line) x := by
  have hcode : PartAt (e.program id line).code.toList 0
      ((e.postOrder 0).map Prod.fst ++ [OpCode.halt.toByte]) := by
    rw [program_code, Expr.programCode, List.map_append]
    exact List.prefix_rfl
  have hbegin := start.follows_begin (e.program id line)
  have hroom : (start.begin (e.program id line)).stack.length + e.need ≤
      (start.begin (e.program id line)).options.stackLimit := by
    rw [hbegin.options_eq]
    exact (Nat.zero_add _).le.trans hneed
  obtain ⟨turns, hturns, -, hstack, hv⟩ := postOrder_leads e 0 0 [OpCode.halt.toByte]
    (start.begin (e.program id line)) heval (by rwa [program_id]) hcode
    (program_loaded e id line hpool) hroom
  have hlast := hcode.right
  rw [List.length_map] at hlast
  exact ⟨_, _, _, _, mem_turnsOf_iff.2 ⟨turns, hturns⟩,
    Chunk.fetch_instruction (Chunk.getElem?_of_partAt_cons hlast) (by decide), hstack, hv⟩

/-- Interpreted on a machine, the text compiles, and the run of its chunk comes to its last
instruction with the value on top. -/
def ReturnsFrom (m : Machine) (source : String) (v : Value) : Prop :=
  ∃ start chunk offset before stack, m.compileNoting source = (start, .ok chunk) ∧
    (offset, before) ∈ start.turnsOf chunk ∧ chunk.fetch offset = .instruction .halt ∧
    before.stack = v :: stack

/-- Interpreted on a machine, the text returns the value and prints the other text on a line of its
own. -/
structure Answers (m : Machine) (source text : String) (v : Value) : Prop where
  printsLine : m.PrintsLine source text
  returnsFrom : m.ReturnsFrom source v

section Texts

variable {m : Machine} {source : String} {v : Value}

/-- No value but an object is the same as another one. -/
theorem eq_of_literal? {heap heap' : Heap} {w : Value} {x : Literal} (hv : v.kind ≠ .object)
    (h : heap.literal? v = some x) (h' : heap'.literal? w = some x) : w = v := by
  cases v with
  | object handle => exact absurd rfl hv
  | nil | bool b | number y =>
    cases h
    cases Heap.means_of_literal? h'
    rfl

/-- A text that compiles is noted, and run as its chunk. -/
theorem interpret_of_compileNoting {start : Machine} {chunk : Chunk}
    (h : m.compileNoting source = (start, .ok chunk)) :
    m.interpret source =
      ((start.runChunk chunk).1, (start.runChunk chunk).2.mapError Failure.runtime) := by
  simp only [interpret, h]
  rcases start.runChunk chunk with ⟨after, result⟩
  cases result <;> rfl

theorem follows_of_compileNoting {start : Machine} {chunk : Chunk}
    (h : m.compileNoting source = (start, .ok chunk)) : m.Follows start := by
  obtain rfl : (m.compileNoting source).1 = start := congrArg Prod.fst h
  exact ((m.follows_note (.compileEntered source.utf8ByteSize) nofun).trans
    ((m.note _).follows_event _)).trans (((m.note _).note _).follows_note .compileLeft nofun)

/-- A text returns what its tree evaluates to. -/
theorem returnsFrom_of_eval {e : Expr} {line : Nat} {x : Literal} (hwrites : Writes source e line)
    (hwithin : e.Within .standard) (hneed : e.need ≤ m.options.stackLimit)
    (heval : e.eval = .ok x) (hkind : v.kind ≠ .object) (hv : m.heap.literal? v = some x) :
    m.ReturnsFrom source v := by
  have hcompile : compile m.heap.id.next source = .ok (e.program m.heap.id.next line) :=
    compile_eq_ok_iff.2 ⟨e, line, hwrites, hwithin, rfl⟩
  obtain ⟨start, hnoting⟩ : ∃ start, m.compileNoting source =
      (start, .ok (e.program m.heap.id.next line)) := ⟨_, Prod.ext rfl hcompile⟩
  have hfollows := follows_of_compileNoting hnoting
  obtain ⟨offset, before, w, stack, hmem, hhalt, hstack, hw⟩ :=
    returns_of_eval start line heval
      (by rw [hfollows.heap_extends.id_eq]; exact m.heap.id.next_ne) hwithin.length_pooled_le
      (by rwa [hfollows.options_eq])
  obtain rfl := eq_of_literal? hkind hv hw
  exact ⟨start, _, offset, before, stack, hnoting, hmem, hhalt, hstack⟩

/-- Before the end of a run nothing has been printed. -/
theorem follows_of_mem_turnsOf {start before : Machine} {chunk : Chunk} {offset : Nat}
    (hroom : start.output.room = none) (h : (offset, before) ∈ start.turnsOf chunk) :
    start.Follows before := by
  have hstart : Silent start chunk (start.start chunk) :=
    .running (start.follows_begin chunk) (fun v hv => absurd hv List.not_mem_nil)
      (mem_turnsOf_iff.2 ⟨0, rfl⟩)
  have hturn (offset : Nat) (m : Machine) (hsilent : Silent start chunk (.running offset m)) :
      Silent start chunk (dispatch chunk (.running offset m)) := by
    cases hsilent with
    | running hfollows howns hmem => exact dispatch_silent hroom hfollows howns hmem
  obtain ⟨k, hk⟩ := mem_turnsOf_iff.1 h
  have hsilent := dispatches_induction hturn hstart k
  rw [hk] at hsilent
  cases hsilent with
  | running hfollows _ _ => exact hfollows

/-- **What is returned is printed**, if it is no object. -/
theorem answers_of_returnsFrom (hroom : m.output.room = none) (hkind : v.kind ≠ .object)
    (h : m.ReturnsFrom source v) : m.Answers source (m.heap.display v) v := by
  refine ⟨?_, h⟩
  obtain ⟨start, chunk, offset, before, stack, hnoting, hmem, hhalt, hstack⟩ := h
  have hstart := follows_of_compileNoting hnoting
  have hroom' : start.output.room = none := by rw [hstart.output_eq, hroom]
  have hall := hstart.trans ((follows_of_mem_turnsOf hroom' hmem).trans
    (before.follows_trace chunk offset))
  rw [← stack_trace before chunk offset] at hstack
  rw [← hall.output_eq] at hroom
  -- the last turn prints the value
  have hrun : runAt chunk 0 (start.begin chunk) =
      conclude chunk offset ((before.trace chunk offset).execute .halt) := by
    obtain ⟨k, hk⟩ := mem_turnsOf_iff.1 hmem
    refine runAt_of_dispatches (k := k + 1) ?_
    rw [dispatches_succ, hk, dispatch_running, hhalt, obey]
  rw [execute_halt hstack hroom, conclude] at hrun
  have hwritten : (before.trace chunk offset).heap.written v =
      Text.Utf8.encode (m.heap.display v).toList := by
    cases v with
    | object handle => exact absurd rfl hkind
    | nil | bool b | number x => rfl
  rw [PrintsLine, interpret_of_compileNoting hnoting, runChunk_of_ok hrun, ← hwritten,
    ← hall.output_eq]
  exact ⟨rfl, rfl⟩

end Texts

end Machine

end ExprMachine
