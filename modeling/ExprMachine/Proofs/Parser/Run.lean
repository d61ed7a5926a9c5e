import ExprMachine.Proofs.Grammar

/-!
# Runs of the parser

The parser as a state that tokens change, one step after the other.

* `ParserState.step`, `ParserState.feed` — one token, and a sequence of them up to the first
  complaint;
* `parseFrom_eq_ok_iff` — a text is read when its tokens lead to its end and the state there is
  complete;
* `step_group`, `step_unary`, `step_literal`, `step_operator`, `step_closing` — what each kind of
  token does;
* `step_needsOperand_eq_ok`, `step_hasOperand_eq_ok` — all that an accepted token can do.
-/

namespace ExprMachine

/-- The literal of a token can be read. -/
def Token.IsReadable (t : Token) : Prop := literalOf? t = .ok t.literal?

/-! ### Runs -/

namespace ParserState

/-- The state after one more token. -/
def step (limits : Limits) : ParserState → Token → Except Complaint ParserState
  | needsOperand pending constants, t => takeOperand limits pending constants t
  | hasOperand pending constants operand, t => takeOperator pending constants operand t

/-- The state after tokens. -/
def feed (limits : Limits) : ParserState → List Token → Except Complaint ParserState
  | state, [] => .ok state
  | state, t :: ts =>
    match state.step limits t with
    | .ok next => next.feed limits ts
    | .error c => .error c

variable {limits : Limits} {state next last : ParserState} {t : Token} {ts us : List Token}

theorem feed_cons (h : state.step limits t = .ok next) :
    state.feed limits (t :: ts) = next.feed limits ts := by
  simp only [feed, h]

theorem feed_append (h : state.feed limits ts = .ok next) :
    state.feed limits (ts ++ us) = next.feed limits us := by
  induction ts generalizing state with
  | nil =>
    cases h
    rfl
  | cons t ts ih =>
    simp only [feed, List.cons_append] at h ⊢
    split at h
    · exact ih h
    · cases h

theorem feed_append_eq_ok (h : state.feed limits (ts ++ us) = .ok last) :
    ∃ next, state.feed limits ts = .ok next ∧ next.feed limits us = .ok last := by
  cases hts : state.feed limits ts with
  | ok next => exact ⟨next, rfl, feed_append hts ▸ h⟩
  | error c =>
    exfalso
    induction ts generalizing state with
    | nil => cases hts
    | cons t ts ih =>
      simp only [feed, List.cons_append] at h hts
      split at h
      · rename_i hstep
        rw [hstep] at hts
        exact ih h hts
      · cases h

theorem feed_cons_eq_ok (h : state.feed limits (t :: ts) = .ok last) :
    ∃ next, state.step limits t = .ok next ∧ next.feed limits ts = .ok last := by
  simp only [feed] at h
  split at h
  · rename_i hstep
    exact ⟨_, hstep, h⟩
  · cases h

end ParserState

open ParserState

theorem parseFrom_cons_of_ok {limits : Limits} {state next : ParserState} {t : Token}
    {ts : List Token} {ending : Cursor.Ending} (h : state.step limits t = .ok next) :
    parseFrom limits state (t :: ts) ending = parseFrom limits next ts ending := by
  cases state with
  | needsOperand pending constants =>
    simp only [step] at h
    simp only [parseFrom, h]
  | hasOperand pending constants operand =>
    simp only [step] at h
    simp only [parseFrom, h]

theorem parseFrom_cons_of_error {limits : Limits} {state : ParserState} {t : Token} {c : Complaint}
    (h : state.step limits t = .error c) (ts : List Token) (ending : Cursor.Ending) :
    ∃ d, parseFrom limits state (t :: ts) ending = .error d := by
  cases state with
  | needsOperand pending constants =>
    simp only [step] at h
    exact ⟨refusal c t ts ending, by simp only [parseFrom, h]⟩
  | hasOperand pending constants operand =>
    simp only [step] at h
    exact ⟨c.atToken t, by simp only [parseFrom, h]⟩

/-- A text is read when its tokens lead to its end and the state there is complete. -/
theorem parseFrom_eq_ok_iff {limits : Limits} {state : ParserState} {ts : List Token}
    {ending : Cursor.Ending} {e : Expr} {line : Nat} :
    parseFrom limits state ts ending = .ok (e, line) ↔
      ending = .endOfText line ∧
        ∃ last, state.feed limits ts = .ok last ∧ last.finish limits line = .ok e := by
  induction ts generalizing state with
  | nil =>
    cases ending with
    | error err stop => simp [parseFrom]
    | endOfText stop =>
      cases hfinish : state.finish limits stop with
      | error d =>
        simp only [parseFrom, hfinish, Except.map, feed]
        constructor
        · rintro ⟨⟩
        · rintro ⟨⟨⟩, last, ⟨⟩, hok⟩
          rw [hfinish] at hok
          cases hok
      | ok found =>
        simp only [parseFrom, hfinish, Except.map, feed]
        constructor
        · rintro ⟨⟩
          exact ⟨rfl, state, rfl, hfinish⟩
        · rintro ⟨⟨⟩, last, ⟨⟩, hok⟩
          rw [hfinish] at hok
          cases hok
          rfl
  | cons t ts ih =>
    cases hstep : state.step limits t with
    | ok next => rw [parseFrom_cons_of_ok hstep, ih, feed_cons hstep]
    | error c =>
      obtain ⟨d, hd⟩ := parseFrom_cons_of_error hstep ts ending
      simp [hd, feed, hstep]

/-! ### Single steps -/

section Steps

variable {limits : Limits} {pending : List Pending} {constants : Nat} {t : Token}

theorem lt_nesting_of_step {state : ParserState}
    (h : step limits (.needsOperand pending constants) t = .ok state) :
    pending.length < limits.nesting := by
  simp only [step, takeOperand] at h
  split at h
  · cases h
  · omega

theorem step_group (hroom : pending.length < limits.nesting) (h : t.kind = .leftParen) :
    step limits (.needsOperand pending constants) t =
      .ok (.needsOperand (.group :: pending) constants) := by
  simp only [step, takeOperand]
  rw [if_neg (by omega), if_pos h]

theorem step_unary (hroom : pending.length < limits.nesting) {op : UnaryOp}
    (h : UnaryOp.ofToken? t.kind = some op) :
    step limits (.needsOperand pending constants) t =
      .ok (.needsOperand (.unary op :: pending) constants) := by
  have hkind : t.kind ≠ .leftParen := by
    intro hkind
    rw [hkind] at h
    cases h
  simp only [step, takeOperand]
  rw [if_neg (by omega), if_neg hkind, h]

theorem Token.kind_of_literal? {value : Literal} (h : t.literal? = some value) :
    t.kind ≠ .leftParen ∧ UnaryOp.ofToken? t.kind = none := by
  unfold Token.literal? at h
  split at h <;> simp_all [UnaryOp.ofToken?]

theorem step_literal (hroom : pending.length < limits.nesting) (hread : t.IsReadable)
    {value : Literal} (h : t.literal? = some value) :
    step limits (.needsOperand pending constants) t =
      if value.isPooled = true ∧ limits.constants ≤ constants then .error .tooManyConstants
      else .ok (.hasOperand pending
        (constants + (Expr.literal value t.line).pooled.length) (.literal value t.line)) := by
  obtain ⟨hkind, hop⟩ := Token.kind_of_literal? h
  simp only [step, takeOperand]
  rw [if_neg (by omega), if_neg hkind, hop, hread, h]
  cases hpooled : value.isPooled with
  | false => simp [Expr.pooled, hpooled]
  | true => simp [Expr.pooled, hpooled]

theorem step_operator {outer : List Pending} {e left : Expr} {op : BinaryOp}
    (hop : BinaryOp.ofToken? t.kind = some op) (h : unwind op.rank pending e = (outer, left)) :
    step limits (.hasOperand pending constants e) t =
      .ok (.needsOperand (.binary op left :: outer) constants) := by
  simp only [step, takeOperator, hop, h]

theorem step_closing {outer : List Pending} {e inner : Expr} (hkind : t.kind = .rightParen)
    (h : unwind 0 pending e = (.group :: outer, inner)) :
    step limits (.hasOperand pending constants e) t =
      .ok (.hasOperand outer constants (.group inner t.line)) := by
  simp [step, takeOperator, hkind, BinaryOp.ofToken?, h]

/-- What an accepted token does where an operand must begin. -/
theorem step_needsOperand_eq_ok {state : ParserState} (hread : t.IsReadable)
    (h : step limits (.needsOperand pending constants) t = .ok state) :
    (t.kind = .leftParen ∧ state = .needsOperand (.group :: pending) constants) ∨
      (∃ op, UnaryOp.ofToken? t.kind = some op ∧
        state = .needsOperand (.unary op :: pending) constants) ∨
      ∃ value counted, t.literal? = some value ∧
        state = .hasOperand pending counted (.literal value t.line) := by
  have hroom := lt_nesting_of_step h
  by_cases hkind : t.kind = .leftParen
  · rw [step_group hroom hkind] at h
    cases h
    exact Or.inl ⟨hkind, rfl⟩
  cases hop : UnaryOp.ofToken? t.kind with
  | some op =>
    rw [step_unary hroom hop] at h
    cases h
    exact Or.inr (Or.inl ⟨op, rfl, rfl⟩)
  | none =>
    cases hvalue : t.literal? with
    | none =>
      simp only [step, takeOperand] at h
      rw [if_neg (by omega), if_neg hkind, hop, hread, hvalue] at h
      cases h
    | some value =>
      rw [step_literal hroom hread hvalue] at h
      split at h
      · cases h
      · cases h
        exact Or.inr (Or.inr ⟨value, _, rfl, rfl⟩)

/-- What an accepted token does after a complete operand. -/
theorem step_hasOperand_eq_ok {e : Expr} {state : ParserState}
    (h : step limits (.hasOperand pending constants e) t = .ok state) :
    (∃ op, BinaryOp.ofToken? t.kind = some op ∧
        state = .needsOperand (.binary op (unwind op.rank pending e).2 ::
          (unwind op.rank pending e).1) constants) ∨
      ∃ outer inner, t.kind = .rightParen ∧ unwind 0 pending e = (.group :: outer, inner) ∧
        state = .hasOperand outer constants (.group inner t.line) := by
  simp only [step, takeOperator] at h
  split at h
  · rename_i op hop
    cases h
    exact Or.inl ⟨op, hop, rfl⟩
  · split at h
    · rename_i outer inner hunwind
      split at h
      · rename_i hkind
        cases h
        exact Or.inr ⟨outer, inner, hkind, hunwind, rfl⟩
      · cases h
    · cases h

end Steps

end ExprMachine
