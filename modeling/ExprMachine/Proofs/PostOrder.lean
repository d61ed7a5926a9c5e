import ExprMachine.Expr.Code
import ExprMachine.Proofs.Contents
import ExprMachine.Proofs.LineTable
import ExprMachine.Proofs.Parser.Soundness
import ExprMachine.Proofs.Tokens

/-!
# Compiled texts

The compiler accepts the texts whose tokens derive a tree within the limits, and what it makes of
one is the tree in post-order.

* `BinaryOp.lowering` — the instructions that operators become;
* `Expr.postOrder` — the code bytes of a tree, each with its line;
* `pooledValues` — constants as values, strings by the places they get;
* `Gains`, `emit_gains` — what emitting a tree adds to a chunk;
* `Expr.program` — a compiled text; `program_gains` and its companions say what is in it;
* `compile_eq_ok_iff` — the texts that are compiled, and to what;
* `compile_iff_derives` — the same with the chunk described byte by byte.
-/

namespace ExprMachine

/-! ### Post-order -/

/-- The code bytes of a literal, whose constant has an index if it is pooled. -/
def Literal.code (index : Nat) : Literal → List UInt8
  | nil => [OpCode.pushNil.toByte]
  | bool b => [if b then OpCode.pushTrue.toByte else OpCode.pushFalse.toByte]
  | number _ => [OpCode.constant.toByte, UInt8.ofNat index]
  | string _ => [OpCode.constant.toByte, UInt8.ofNat index]

/-- The instruction that an operator before an operand becomes. -/
def UnaryOp.lowering : UnaryOp → OpCode
  | negate => .negate
  | not => .not

/-- The instructions that an operator between operands becomes. Three have no instruction of their
own: `a != b`, `a >= b` and `a <= b` deny `a == b`, `a < b` and `a > b`. -/
def BinaryOp.lowering : BinaryOp → List OpCode
  | equal => [.equal]
  | greater => [.greater]
  | less => [.less]
  | add => [.add]
  | subtract => [.subtract]
  | multiply => [.multiply]
  | divide => [.divide]
  | notEqual => [.equal, .not]
  | greaterEqual => [.less, .not]
  | lessEqual => [.greater, .not]

/-- The code bytes of a tree with their lines: operands in the order of the text, then the operator,
on the line where its last operand ends. Constants are numbered from `index` on. -/
def Expr.postOrder (index : Nat) : Expr → List (UInt8 × Nat)
  | literal value line => (value.code index).map (·, line)
  | group inner _ => inner.postOrder index
  | unary op operand => operand.postOrder index ++ [(op.lowering.toByte, operand.lastLine)]
  | binary op left right =>
    left.postOrder index ++ right.postOrder (index + left.pooled.length) ++
      op.lowering.map fun code => (code.toByte, right.lastLine)

/-- The code of an operator is what the operator becomes. -/
theorem UnaryOp.lowering_eq (op : UnaryOp) : op.lowering = op.code := by
  cases op <;> rfl

theorem BinaryOp.lowering_eq (op : BinaryOp) : op.lowering = op.code := by
  cases op <;> rfl

namespace Expr

variable (index : Nat) (rest : List UInt8)

theorem postOrder_unary (op : UnaryOp) (operand : Expr) :
    (unary op operand).postOrder index =
      operand.postOrder index ++ [(op.code.toByte, operand.lastLine)] := by
  rw [postOrder, UnaryOp.lowering_eq]

theorem postOrder_binary (op : BinaryOp) (left right : Expr) :
    (binary op left right).postOrder index =
      left.postOrder index ++ right.postOrder (index + left.pooled.length) ++
        op.code.map fun code => (code.toByte, right.lastLine) := by
  rw [postOrder, BinaryOp.lowering_eq]

theorem bytes_literal (value : Literal) (line : Nat) :
    ((literal value line).postOrder index).map Prod.fst ++ rest = value.code index ++ rest := by
  simp [postOrder, Function.comp_def]

theorem bytes_unary (op : UnaryOp) (operand : Expr) :
    ((unary op operand).postOrder index).map Prod.fst ++ rest =
      (operand.postOrder index).map Prod.fst ++ op.code.toByte :: rest := by
  simp [postOrder_unary]

theorem bytes_binary (op : BinaryOp) (left right : Expr) :
    ((binary op left right).postOrder index).map Prod.fst ++ rest =
      (left.postOrder index).map Prod.fst ++
        ((right.postOrder (index + left.pooled.length)).map Prod.fst ++
          (op.code.map OpCode.toByte ++ rest)) := by
  simp [postOrder_binary, Function.comp_def]

theorem length_postOrder_literal (value : Literal) (line : Nat) :
    ((literal value line).postOrder index).length = (value.code index).length := by
  simp [postOrder]

theorem length_postOrder_unary (op : UnaryOp) (operand : Expr) :
    ((unary op operand).postOrder index).length = (operand.postOrder index).length + 1 := by
  simp [postOrder_unary]

theorem length_postOrder_binary (op : BinaryOp) (left right : Expr) :
    ((binary op left right).postOrder index).length =
      (left.postOrder index).length + (right.postOrder (index + left.pooled.length)).length +
        op.code.length := by
  simp [postOrder_binary, Nat.add_assoc]

end Expr

/-- A literal as a value; a string is at a place. -/
def Literal.valueAt (place : Handle) : Literal → Value
  | nil => .nil
  | bool b => .bool b
  | number x => .number x
  | string _ => .object place

/-- Literals as values; strings take one place after the other. -/
def pooledValues (id : HeapId) (slot : Nat) : List Literal → List Value
  | [] => []
  | x :: rest => x.valueAt ⟨id, slot⟩ :: pooledValues id (slot + x.bytes?.toList.length) rest

theorem pooledValues_append (id : HeapId) (slot : Nat) (xs ys : List Literal) :
    pooledValues id slot (xs ++ ys) =
      pooledValues id slot xs ++
        pooledValues id (slot + (xs.filterMap Literal.bytes?).length) ys := by
  induction xs generalizing slot with
  | nil => rfl
  | cons x xs ih =>
    cases hx : x.bytes? with
    | none => simp [pooledValues, ih, hx]
    | some bytes => simp [pooledValues, ih, hx, Nat.add_assoc, Nat.add_comm 1]

@[simp]
theorem length_pooledValues (id : HeapId) (slot : Nat) (xs : List Literal) :
    (pooledValues id slot xs).length = xs.length := by
  induction xs generalizing slot with
  | nil => rfl
  | cons x xs ih => simp [pooledValues, ih]

/-- Where the strings are in their places, the values are the literals. -/
theorem map_literal?_pooledValues {heap : Heap} {slot : Nat} {xs : List Literal}
    (h : xs.filterMap Literal.bytes? <+: heap.objects.toList.drop slot) :
    (pooledValues heap.id slot xs).map heap.literal? = xs.map some := by
  induction xs generalizing slot with
  | nil => rfl
  | cons x xs ih =>
    cases x with
    | string bytes =>
      have h' : bytes :: xs.filterMap Literal.bytes? <+: heap.objects.toList.drop slot := h
      obtain ⟨more, hmore⟩ := h'
      have hget : heap.get? ⟨heap.id, slot⟩ = some bytes := by
        rw [Heap.get?_eq_getElem? rfl]
        have hhead := congrArg List.head? hmore
        rw [List.head?_drop] at hhead
        exact hhead.symm
      have hrest : xs.filterMap Literal.bytes? <+: heap.objects.toList.drop (slot + 1) := by
        refine ⟨more, ?_⟩
        have htail := congrArg List.tail hmore
        rw [List.tail_drop] at htail
        exact htail
      simp only [pooledValues, Literal.valueAt, List.map_cons, Heap.literal?, hget,
        Option.map_some, Literal.bytes?, Option.toList_some, List.length_singleton, ih hrest]
    | nil | bool b | number y =>
      simp only [pooledValues, Literal.valueAt, List.map_cons, Heap.literal?]
      exact congrArg _ (ih h)

/-! ### Emitting -/

/-- A chunk with code and constants added. -/
structure Gains (chunk larger : Chunk) (code : List (UInt8 × Nat)) (pool : List Literal) :
    Prop where
  code_eq : larger.code.toList = chunk.code.toList ++ code.map Prod.fst
  lines_eq : larger.lines.toList = chunk.lines.toList ++ code.map Prod.snd
  constants_eq : larger.constants.toList =
    chunk.constants.toList ++ pooledValues chunk.objects.id chunk.objects.size pool
  objects_eq : larger.objects.objects.toList =
    chunk.objects.objects.toList ++ pool.filterMap Literal.bytes?
  id_eq : larger.objects.id = chunk.objects.id
  inStep : chunk.InStep → larger.InStep

theorem Gains.trans {a b c : Chunk} {code code' : List (UInt8 × Nat)} {pool pool' : List Literal}
    (h : Gains a b code pool) (h' : Gains b c code' pool') :
    Gains a c (code ++ code') (pool ++ pool') where
  code_eq := by rw [h'.code_eq, h.code_eq, List.map_append, List.append_assoc]
  lines_eq := by rw [h'.lines_eq, h.lines_eq, List.map_append, List.append_assoc]
  constants_eq := by
    have hsize : b.objects.size = a.objects.size + (pool.filterMap Literal.bytes?).length := by
      simpa [Heap.size] using congrArg List.length h.objects_eq
    rw [h'.constants_eq, h.constants_eq, h.id_eq, hsize, pooledValues_append, List.append_assoc]
  objects_eq := by rw [h'.objects_eq, h.objects_eq, List.filterMap_append, List.append_assoc]
  id_eq := h'.id_eq.trans h.id_eq
  inStep := fun hstep => h'.inStep (h.inStep hstep)

theorem Gains.size_constants {chunk larger : Chunk} {code : List (UInt8 × Nat)}
    {pool : List Literal} (h : Gains chunk larger code pool) :
    larger.constants.size = chunk.constants.size + pool.length := by
  simpa using congrArg List.length h.constants_eq

/-- The constants of a chunk are the literals that it has gained from nothing on. -/
theorem Gains.constants_of_empty {id : HeapId} {chunk : Chunk} {code : List (UInt8 × Nat)}
    {pool : List Literal} (h : Gains (.empty id) chunk code pool) :
    chunk.constants.toList.map chunk.objects.literal? = pool.map some := by
  have hconstants : chunk.constants.toList = pooledValues chunk.objects.id 0 pool := by
    rw [h.id_eq]
    exact h.constants_eq
  have hobjects : chunk.objects.objects.toList = pool.filterMap Literal.bytes? := h.objects_eq
  rw [hconstants]
  refine map_literal?_pooledValues ⟨[], ?_⟩
  rw [List.append_nil, List.drop_zero, hobjects]

section Places

variable {id : HeapId} {chunk : Chunk} {code : List (UInt8 × Nat)} {pool : List Literal}
  (h : Gains (.empty id) chunk code pool)

include h

theorem Gains.getElem?_code (offset : Nat) : chunk.code[offset]? = code[offset]?.map Prod.fst := by
  rw [← Array.getElem?_toList, h.code_eq, ← List.getElem?_map]
  rfl

theorem Gains.lineAt?_eq (offset : Nat) :
    chunk.lines.lineAt? offset = code[offset]?.map Prod.snd := by
  rw [LineTable.lineAt?_eq_getElem? (h.inStep (Chunk.inStep_empty id)).counted, h.lines_eq,
    ← List.getElem?_map]
  rfl

theorem Gains.size_eq : chunk.size = code.length := by
  have hlength := congrArg List.length h.code_eq
  rw [List.length_append, List.length_map] at hlength
  exact hlength.trans (Nat.zero_add _)

end Places

theorem gains_nothing (chunk : Chunk) : Gains chunk chunk [] [] :=
  ⟨by simp, by simp, by simp [pooledValues], by simp, rfl, id⟩

theorem gains_write (chunk : Chunk) (byte : UInt8) (line : Nat) :
    Gains chunk (chunk.write byte line) [(byte, line)] [] where
  code_eq := by simp [Chunk.write]
  lines_eq := LineTable.toList_push chunk.lines line
  constants_eq := (List.append_nil _).symm
  objects_eq := (List.append_nil _).symm
  id_eq := rfl
  inStep := fun h => h.write byte line

theorem gains_codes (codes : List OpCode) (chunk : Chunk) (line : Nat) :
    Gains chunk (codes.foldl (fun chunk code => chunk.writeOp code line) chunk)
      (codes.map fun code => (code.toByte, line)) [] := by
  induction codes generalizing chunk with
  | nil => exact gains_nothing chunk
  | cons code codes ih => exact (gains_write chunk code.toByte line).trans (ih _)

/-- A scalar becomes a constant as it is. -/
theorem gains_addScalar (chunk : Chunk) {x : Literal} {v : Value} (hbytes : x.bytes? = none)
    (hv : ∀ place, x.valueAt place = v) : Gains chunk (chunk.addConstant v) [] [x] where
  code_eq := (List.append_nil _).symm
  lines_eq := (List.append_nil _).symm
  constants_eq := by simp [Chunk.addConstant, pooledValues, hv]
  objects_eq := by simp [Chunk.addConstant, hbytes]
  id_eq := rfl
  inStep := fun h => h.addConstant v

theorem gains_addString (chunk : Chunk) (bytes : List UInt8) :
    Gains chunk
      ((chunk.addString bytes).2.addConstant (.object (chunk.addString bytes).1)) []
      [.string bytes] where
  code_eq := (List.append_nil _).symm
  lines_eq := (List.append_nil _).symm
  constants_eq := by
    simp [Chunk.addConstant, Chunk.addString, Heap.alloc, pooledValues, Literal.valueAt]
  objects_eq := by simp [Chunk.addConstant, Chunk.addString, Heap.alloc, Literal.bytes?]
  id_eq := rfl
  inStep := fun h => (h.addString bytes).addConstant _

theorem literal_emit_gains (value : Literal) (chunk : Chunk) (line : Nat) :
    Gains chunk (value.emit chunk line) ((value.code chunk.constants.size).map (·, line))
      (if value.isPooled then [value] else []) := by
  cases value with
  | nil => exact gains_write chunk _ line
  | bool b => cases b <;> exact gains_write chunk _ line
  | number x =>
    exact (gains_addScalar chunk rfl fun _ => rfl).trans
      ((gains_write _ OpCode.constant.toByte line).trans (gains_write _ _ line))
  | string bytes =>
    exact (gains_addString chunk bytes).trans
      ((gains_write _ OpCode.constant.toByte line).trans (gains_write _ _ line))

/-- Emitting a tree adds its post-order and its constants. -/
theorem emit_gains (e : Expr) (chunk : Chunk) :
    Gains chunk (e.emit chunk) (e.postOrder chunk.constants.size) e.pooled := by
  induction e generalizing chunk with
  | literal value line => exact literal_emit_gains value chunk line
  | group inner line ih => exact ih chunk
  | unary op operand ih =>
    have h := (ih chunk).trans (gains_write (operand.emit chunk) op.code.toByte operand.lastLine)
    rwa [List.append_nil, ← Expr.postOrder_unary] at h
  | binary op left right ihl ihr =>
    have hboth := (ihl chunk).trans (ihr (left.emit chunk))
    have h := hboth.trans (gains_codes op.code (right.emit (left.emit chunk)) right.lastLine)
    rwa [List.append_nil, (ihl chunk).size_constants, ← Expr.postOrder_binary] at h

/-! ### Texts -/

/-- A text writes a tree: it has no lexical error, its tokens derive the tree, and it ends on the
line. -/
def Writes (source : String) (e : Expr) (line : Nat) : Prop :=
  ∃ tokens, (Cursor.start source.toList).tokens = (tokens, .endOfText line) ∧ Derives 0 tokens e

theorem isReadable_of_tokens_eq {cursor : Cursor} {tokens : List Token} {ending : Cursor.Ending}
    (h : cursor.tokens = (tokens, ending)) : ∀ t ∈ tokens, t.IsReadable := by
  intro t ht
  have hmem : t ∈ cursor.tokens.1 := by rwa [h]
  exact isReadable_of_mem_tokens hmem

/-- A text writes one tree. -/
theorem Writes.unique {source : String} {e e' : Expr} {line line' : Nat} (h : Writes source e line)
    (h' : Writes source e' line') : e = e' := by
  obtain ⟨tokens, htokens, hderives⟩ := h
  obtain ⟨tokens', htokens', hderives'⟩ := h'
  rw [htokens] at htokens'
  cases htokens'
  exact hderives.unique hderives' (isReadable_of_tokens_eq htokens)

/-- The parser finds the tree that a text writes, if that keeps to the limits. -/
theorem parse_eq_ok_iff {source : String} {e : Expr} {line : Nat} :
    parse source.toList = .ok (e, line) ↔ Writes source e line ∧ e.Within .standard := by
  unfold parse Writes
  cases htokens : (Cursor.start source.toList).tokens with
  | mk tokens ending =>
    have hread := isReadable_of_tokens_eq htokens
    simp only
    rw [parseFrom_eq_ok_iff, feed_finish_iff hread]
    constructor
    · intro hparsed
      obtain ⟨rfl, hderives, hwithin⟩ := hparsed
      exact ⟨⟨tokens, rfl, hderives⟩, hwithin⟩
    · intro hwritten
      obtain ⟨⟨tokens', heq, hderives⟩, hwithin⟩ := hwritten
      cases heq
      exact ⟨rfl, hderives, hwithin⟩

/-- The chunk of a tree in a text that ends on a line. -/
def Expr.program (e : Expr) (id : HeapId) (line : Nat) : Chunk :=
  (e.emit (.empty id)).writeOp .halt line

/-- The code bytes of a program, each with its line. -/
def Expr.programCode (e : Expr) (line : Nat) : List (UInt8 × Nat) :=
  e.postOrder 0 ++ [(OpCode.halt.toByte, line)]

theorem compile_eq_ok_iff {id : HeapId} {source : String} {chunk : Chunk} :
    compile id source = .ok chunk ↔
      ∃ e line, Writes source e line ∧ e.Within .standard ∧ chunk = e.program id line := by
  unfold compile
  cases hparse : parse source.toList with
  | error d =>
    simp only [Except.map]
    constructor
    · intro hcompiled
      cases hcompiled
    · intro hwritten
      obtain ⟨e, line, hwrites, hwithin, -⟩ := hwritten
      rw [parse_eq_ok_iff.2 ⟨hwrites, hwithin⟩] at hparse
      cases hparse
  | ok found =>
    obtain ⟨e, line⟩ := found
    obtain ⟨hwrites, hwithin⟩ := parse_eq_ok_iff.1 hparse
    simp only [Except.map]
    constructor
    · intro hcompiled
      cases hcompiled
      exact ⟨e, line, hwrites, hwithin, rfl⟩
    · intro hwritten
      obtain ⟨e', line', hwrites', hwithin', rfl⟩ := hwritten
      rw [parse_eq_ok_iff.2 ⟨hwrites', hwithin'⟩] at hparse
      cases hparse
      rfl

/-- Where the parser gives a tree, the text writes it and is compiled to its program. -/
theorem compile_of_parse {source : String} {e : Expr} {line : Nat} (id : HeapId)
    (h : (parse source.toList).toOption = some (e, line)) :
    Writes source e line ∧ compile id source = .ok (e.program id line) := by
  cases hparse : parse source.toList with
  | error d =>
    rw [hparse] at h
    cases h
  | ok found =>
    rw [hparse] at h
    cases h
    obtain ⟨hwrites, hwithin⟩ := parse_eq_ok_iff.1 hparse
    exact ⟨hwrites, compile_eq_ok_iff.2 ⟨e, line, hwrites, hwithin, rfl⟩⟩

/-! ### What is in a program -/

section Program

variable (e : Expr) (id : HeapId) (line : Nat)

theorem program_gains : Gains (.empty id) (e.program id line) (e.programCode line) e.pooled := by
  have h := (emit_gains e (.empty id)).trans (gains_write _ OpCode.halt.toByte line)
  rwa [List.append_nil] at h

theorem program_code : (e.program id line).code.toList = (e.programCode line).map Prod.fst :=
  (program_gains e id line).code_eq

theorem program_lines : (e.program id line).lines.toList = (e.programCode line).map Prod.snd :=
  (program_gains e id line).lines_eq

theorem program_inStep : (e.program id line).InStep :=
  (program_gains e id line).inStep (Chunk.inStep_empty id)

theorem program_id : (e.program id line).objects.id = id := (program_gains e id line).id_eq

theorem program_objects :
    (e.program id line).objects.objects.toList = e.pooled.filterMap Literal.bytes? :=
  (program_gains e id line).objects_eq

/-- The constants of a program are those of the tree, in order. -/
theorem program_constants :
    (e.program id line).constants.toList.map (e.program id line).objects.literal? =
      e.pooled.map some := (program_gains e id line).constants_of_empty

end Program

/-- **The compiler accepts exactly the grammar within the limits.** The text must be free of lexical
errors, its tokens derive a tree, at most 256 of them be numbers and strings, and the tree nest at
most 256 deep. Then the tree is the only one, and the chunk is its post-order and `RETURN`, with the
numbers and strings of the text as constants, in order. -/
theorem compile_iff_derives (id : HeapId) (source : String) :
    ((∃ chunk, compile id source = .ok chunk) ↔
      ∃ tokens line e, (Cursor.start source.toList).tokens = (tokens, .endOfText line) ∧
        Derives 0 tokens e ∧ tokens.countP Token.isPooled ≤ constantLimit ∧
        e.nest ≤ nestingLimit) ∧
    ∀ chunk, compile id source = .ok chunk →
      ∃ tokens line e, (Cursor.start source.toList).tokens = (tokens, .endOfText line) ∧
        Derives 0 tokens e ∧ (∀ e', Derives 0 tokens e' → e' = e) ∧
        chunk.code.toList = (e.postOrder 0).map Prod.fst ++ [OpCode.halt.toByte] ∧
        chunk.lines.toList = (e.postOrder 0).map Prod.snd ++ [line] ∧
        chunk.constants.toList.map chunk.objects.literal? =
          (tokens.filterMap Token.constant?).map some ∧
        chunk.objects.objects.toList =
          (tokens.filterMap Token.constant?).filterMap Literal.bytes? ∧
        chunk.objects.id = id := by
  refine ⟨⟨?_, ?_⟩, ?_⟩
  · intro hcompiled
    obtain ⟨chunk, hcompile⟩ := hcompiled
    obtain ⟨e, line, ⟨tokens, htokens, hderives⟩, hwithin, -⟩ := compile_eq_ok_iff.1 hcompile
    exact ⟨tokens, line, e, htokens, hderives, hderives.length_pooled ▸ hwithin.length_pooled_le,
      hwithin.nest_le⟩
  · intro hderived
    obtain ⟨tokens, line, e, htokens, hderives, hpool, hnest⟩ := hderived
    have hwithin : e.Within .standard := ⟨hnest, hderives.length_pooled.symm ▸ hpool⟩
    exact ⟨_, compile_eq_ok_iff.2 ⟨e, line, ⟨tokens, htokens, hderives⟩, hwithin, rfl⟩⟩
  · intro chunk hcompile
    obtain ⟨e, line, ⟨tokens, htokens, hderives⟩, hwithin, rfl⟩ := compile_eq_ok_iff.1 hcompile
    have hread := isReadable_of_tokens_eq htokens
    refine ⟨tokens, line, e, htokens, hderives, fun e' he' => he'.unique hderives hread, ?_, ?_, ?_,
      ?_, program_id e id line⟩
    · simp [program_code, Expr.programCode]
    · simp [program_lines, Expr.programCode]
    · rw [← hderives.pooled_eq]
      exact program_constants e id line
    · rw [← hderives.pooled_eq]
      exact program_objects e id line

end ExprMachine
