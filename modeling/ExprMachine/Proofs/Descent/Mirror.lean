import ExprMachine.Proofs.Descent.Invariant
import ExprMachine.Proofs.Parser.Diagnosis
import ExprMachine.Proofs.Scanner.Continuation

/-!
# The descent and the parser

The parser holds trees where the descent has emitted code, and a list of what waits where the
descent has calls that have not returned. Between tokens they can be compared.

* `strength_of_ofToken?`, `operatorCode?_of_ofToken?` — the precedences are the ranks, and the
  operators have the same instructions;
* `Waiting` — the calls, and the code so far, for what the parser keeps waiting;
  `Waiting.floor_le_of_unwind`;
* `Mirrors` — the descent at a state of the parser;
* `Ahead` — the tokens from the one that is looked at on.
-/

namespace ExprMachine

/-! ### Operators -/

section Operators

variable {kind : TokenKind}

theorem UnaryOp.code_of_ofToken? {op : UnaryOp} (h : UnaryOp.ofToken? kind = some op) :
    (if some kind = some .minus then .negate else .not) = op.code := by
  unfold UnaryOp.ofToken? at h
  split at h <;> cases h <;> rfl

variable {op : BinaryOp} (h : BinaryOp.ofToken? kind = some op)

include h

theorem operatorCode?_of_ofToken? : operatorCode? (some kind) = some op.code := by
  unfold BinaryOp.ofToken? at h
  split at h <;> cases h <;> rfl

/-- The precedences are the ranks, with one place below them. -/
theorem strength_of_ofToken? : (Precedence.ofOperator (some kind)).strength = op.rank + 1 := by
  unfold BinaryOp.ofToken? at h
  split at h <;> cases h <;> rfl

theorem strength_next_of_ofToken? :
    (Precedence.ofOperator (some kind)).next.strength = op.rank + 2 := by
  unfold BinaryOp.ofToken? at h
  split at h <;> cases h <;> rfl

end Operators

/-- What is no operator between operands binds nothing. -/
theorem ofOperator_of_ofToken?_none {kind : TokenKind} (h : BinaryOp.ofToken? kind = none) :
    Precedence.ofOperator (some kind) = .nothing := by
  unfold BinaryOp.ofToken? at h
  unfold Precedence.ofOperator
  split <;> simp_all

theorem strength_ofOperator_le (kind? : Option TokenKind) :
    (Precedence.ofOperator kind?).strength ≤ 5 := by
  unfold Precedence.ofOperator
  split <;> decide

/-! ### What waits -/

/-- For what the parser keeps waiting: the floor of the operand that is due, the calls that wait for
it, and the code that they have emitted. -/
inductive Waiting (id : HeapId) : List Pending → Precedence → List Call → Chunk → Prop
  | nil : Waiting id [] .assignment [.text] (.empty id)
  | group {outer : List Pending} {floor : Precedence} {calls : List Call} {chunk : Chunk} :
      Waiting id outer floor calls chunk →
      Waiting id (.group :: outer) .assignment (.group :: .operand floor :: calls) chunk
  | unary {outer : List Pending} {floor : Precedence} {calls : List Call} {chunk : Chunk}
      {kind : TokenKind} {op : UnaryOp} :
      UnaryOp.ofToken? kind = some op → Waiting id outer floor calls chunk →
      Waiting id (.unary op :: outer) .unary (.unary (some kind) :: .operand floor :: calls) chunk
  | binary {outer : List Pending} {floor : Precedence} {calls : List Call} {chunk : Chunk}
      {kind : TokenKind} {op : BinaryOp} {left : Expr} :
      BinaryOp.ofToken? kind = some op → Waiting id outer floor calls chunk →
      Waiting id (.binary op left :: outer) (.next (.ofOperator (some kind)))
        (.binary (some kind) :: .operand floor :: calls) (left.emit chunk)

section Waiting

variable {id : HeapId} {pending : List Pending} {floor : Precedence} {calls : List Call}
  {chunk : Chunk}

/-- As many operands have been begun as things wait. -/
theorem Waiting.countP_eq (h : Waiting id pending floor calls chunk) :
    calls.countP Call.isOperand = pending.length := by
  induction h with
  | nil => rfl
  | group _ ih | unary _ _ ih | binary _ _ ih =>
    rw [List.countP_cons_of_neg Bool.false_ne_true, List.countP_cons_of_pos rfl, ih,
      List.length_cons]

/-- What is left waiting before an operator of a rank is called for nothing that binds tighter. -/
theorem Waiting.floor_le_of_unwind {rank : Nat} {e : Expr}
    (h : Waiting id (unwind rank pending e).1 floor calls chunk) : floor.strength ≤ rank + 1 := by
  induction pending generalizing e with
  | nil =>
    cases h
    exact Nat.le_add_left 1 rank
  | cons p outer ih =>
    cases p with
    | group =>
      cases h
      exact Nat.le_add_left 1 rank
    | unary op => exact ih h
    | binary op left =>
      rw [unwind] at h
      split at h
      · exact ih h
      · rename_i hrank
        cases h with
        | binary hop _ =>
          rw [strength_next_of_ofToken? hop]
          omega

end Waiting

/-- The descent at a state of the parser. -/
inductive Mirrors (id : HeapId) : ParserState → Descent → Prop
  | needsOperand {pending : List Pending} {constants : Nat} {floor : Precedence} {s : Descent} :
      Waiting id pending floor s.calls s.chunk → s.point = .operand floor →
      s.depth = pending.length → s.depth ≤ nestingLimit → s.chunk.constants.size = constants →
      Mirrors id (.needsOperand pending constants) s
  | hasOperand {pending : List Pending} {constants : Nat} {e : Expr} {floor : Precedence}
      {calls : List Call} {chunk : Chunk} {s : Descent} :
      Waiting id pending floor calls chunk → s.calls = .operand floor :: calls →
      s.chunk = e.emit chunk → s.previous.line = e.lastLine → s.point = .returned →
      s.depth = pending.length + 1 → s.depth ≤ nestingLimit →
      s.chunk.constants.size = constants → Mirrors id (.hasOperand pending constants e) s

theorem Mirrors.depth_eq {id : HeapId} {state : ParserState} {s : Descent}
    (h : Mirrors id state s) : s.depth = s.calls.countP Call.isOperand := by
  cases h with
  | needsOperand hwaiting _ hdepth _ _ => rw [hwaiting.countP_eq, hdepth]
  | hasOperand hwaiting hcalls _ _ _ hdepth _ _ =>
    rw [hcalls, List.countP_cons_of_pos rfl, hwaiting.countP_eq, hdepth]

/-! ### What is looked at -/

/-- The tokens from the one that is looked at on, and how they end. -/
inductive Ahead : Mark → Cursor → List Token → Cursor.Ending → Prop
  | endOfText {line : Nat} : Ahead (.endOfText line) ⟨[], line⟩ [] (.endOfText line)
  | token {t : Token} {cursor : Cursor} {ts : List Token} {ending : Cursor.Ending} :
      cursor.Scans ts ending → Ahead (.ofToken t) cursor (t :: ts) ending

theorem Ahead.current_eq {current : Mark} {cursor : Cursor} {t : Token} {ts : List Token}
    {ending : Cursor.Ending} (h : Ahead current cursor (t :: ts) ending) :
    current = .ofToken t := by
  cases h
  rfl

theorem Ahead.of_nil {current : Mark} {cursor : Cursor} {ending : Cursor.Ending}
    (h : Ahead current cursor [] ending) :
    ∃ line, current = .endOfText line ∧ cursor = ⟨[], line⟩ ∧ ending = .endOfText line := by
  cases h
  exact ⟨_, rfl, rfl, rfl⟩

theorem Cursor.next_of_endOfText {cursor : Cursor} {line : Nat}
    (h : cursor.next.1 = .endOfText line) : cursor.next = (.endOfText line, ⟨[], line⟩) := by
  cases cursor.decides with
  | atEnd hahead _ =>
    have hnext := next_of_ahead_nil hahead
    rw [hnext] at h ⊢
    cases h
    rfl
  | token _ hitem _ | unterminated _ _ hitem | unexpected _ _ _ hitem =>
    rw [h] at hitem
    cases hitem

theorem Cursor.Scans.matches {cursor : Cursor} {ts : List Token} {ending : Cursor.Ending}
    (h : cursor.Scans ts ending) : ∀ t ∈ ts, Matches t.kind t.text := by
  induction h with
  | endOfText _ | error _ => nofun
  | token hitem _ ih => exact List.forall_mem_cons.2 ⟨Cursor.matches_of_next hitem, ih⟩

/-- A token whose text fits its kind can be read. -/
theorem Matches.isReadable {t : Token} (h : Matches t.kind t.text) : t.IsReadable := by
  unfold Token.IsReadable literalOf? Token.literal?
  cases hkind : t.kind with
  | number =>
    rw [hkind] at h
    obtain ⟨x, hx⟩ := Option.isSome_iff_exists.1 h.isSome_binary64?
    simp only [hx, Option.getD_some]
  | keyword word => cases word <;> rfl
  | _ => rfl

/-- Between the first and the last byte of a quoted text is the content of the string. -/
theorem bytes_between_quotes (body : List Char) :
    ((Text.Utf8.encode ('"' :: (body ++ ['"']))).take
        ((Text.Utf8.encode ('"' :: (body ++ ['"']))).length - 1)).drop 1 =
      stringContent ('"' :: (body ++ ['"'])) := by
  rw [encode_quoted, stringContent]
  simp

end ExprMachine
