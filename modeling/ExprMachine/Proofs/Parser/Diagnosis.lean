import ExprMachine.Proofs.Parser.Beginning
import ExprMachine.Proofs.PostOrder

/-!
# Where the parser stops, and why

A text that is no expression, or one too large, is refused at one token. The tokens before it begin
an expression; what they leave open decides which complaints are possible, and the token which of
them is made.

* `Offends` — what a token, or the end of the text, does wrong at a place;
* `step_needsOperand_eq_error_iff`, `step_hasOperand_eq_error_iff` — the complaints of a step;
* `step_eq_error_iff_offends`, `finish_eq_error_iff_offends` — each is about such an offence;
* `compile_diagnosis` — the diagnostic of a text names the first offence and its place.
-/

namespace ExprMachine

open ParserState

variable {limits : Limits} {ts : List Token} {pending : List Pending} {e : Expr}
  {state : ParserState} {t : Token}

/-! ### Offences -/

/-- An operand can begin with the token: a parenthesis, a unary operator or a literal. -/
def Token.BeginsOperand (t : Token) : Prop :=
  t.kind = .leftParen ∨ (∃ op : UnaryOp, op.WrittenBy t.kind) ∨ ∃ value, t.literal? = some value

/-- The token is an operator between operands. -/
def Token.JoinsOperands (t : Token) : Prop :=
  ∃ (op : BinaryOp) (level : Nat), op.StandsAt t.kind level

/-- What a token, or the end of the text, does wrong behind other tokens. -/
inductive Offends (limits : Limits) (ts : List Token) : Option Token → Complaint → Prop
  /-- An operand would begin one level too deep. -/
  | nestsTooDeeply {t? : Option Token} :
      AtOperand ts (limits.nesting + 1) → Offends limits ts t? .nestsTooDeeply
  /-- An operand must begin, and does not. -/
  | expectExpression {t? : Option Token} {level : Nat} :
      AtOperand ts level → level ≤ limits.nesting → (∀ t ∈ t?, ¬ t.BeginsOperand) →
      Offends limits ts t? .expectExpression
  /-- The operand is a number or a string, after as many as are allowed. -/
  | tooManyConstants {t : Token} {level : Nat} :
      AtOperand ts level → level ≤ limits.nesting → t.isPooled = true →
      ts.countP Token.isPooled = limits.constants → Offends limits ts (some t) .tooManyConstants
  /-- A group is open, and neither goes on nor ends. -/
  | expectClosingParen {t? : Option Token} :
      AfterOperand ts true → (∀ t ∈ t?, ¬ t.JoinsOperands ∧ t.kind ≠ .rightParen) →
      Offends limits ts t? .expectClosingParen
  /-- The expression is complete, does not go on, and more follows. -/
  | expectEnd {t : Token} :
      AfterOperand ts false → ¬ t.JoinsOperands → Offends limits ts (some t) .expectEnd

/-! ### Complaints -/

theorem Token.joinsOperands_iff : t.JoinsOperands ↔ ∃ op, BinaryOp.ofToken? t.kind = some op := by
  simp [Token.JoinsOperands, BinaryOp.standsAt_iff]

theorem Token.literal?_of_isPooled (h : t.isPooled = true) :
    ∃ value, t.literal? = some value ∧ value.isPooled = true := by
  rw [← t.isSome_constant?, Option.isSome_iff_exists] at h
  obtain ⟨value, hvalue⟩ := h
  exact ⟨value, Option.filter_eq_some_iff.1 hvalue⟩

variable {constants : Nat} {c : Complaint}

theorem Token.isPooled_of_literal {value : Literal} (h : t.literal? = some value) :
    t.isPooled = value.isPooled := by
  rw [← t.isSome_constant?, Token.constant?, h]
  cases hvalue : value.isPooled <;> simp [Option.filter, hvalue]

/-- A token with which no operand begins is refused as such. -/
theorem step_of_not_beginsOperand (hread : t.IsReadable) (hroom : pending.length < limits.nesting)
    (h : ¬ t.BeginsOperand) :
    step limits (.needsOperand pending constants) t = .error .expectExpression := by
  have hkind : t.kind ≠ .leftParen := fun hkind => h (.inl hkind)
  have hop : UnaryOp.ofToken? t.kind = none := by
    refine Option.eq_none_iff_forall_ne_some.2 ?_
    intro op hop
    exact h (.inr (.inl ⟨op, UnaryOp.writtenBy_iff.2 hop⟩))
  have hvalue : t.literal? = none := by
    refine Option.eq_none_iff_forall_ne_some.2 ?_
    intro value hvalue
    exact h (.inr (.inr ⟨value, hvalue⟩))
  simp only [step, takeOperand]
  rw [if_neg (by omega), if_neg hkind, hop, hread, hvalue]

/-- **Complaints where an operand must begin**, in the order of the checks. -/
theorem step_needsOperand_eq_error_iff (hread : t.IsReadable) :
    step limits (.needsOperand pending constants) t = .error c ↔
      (limits.nesting ≤ pending.length ∧ c = .nestsTooDeeply) ∨
        (pending.length < limits.nesting ∧ ¬ t.BeginsOperand ∧ c = .expectExpression) ∨
        (pending.length < limits.nesting ∧ t.isPooled = true ∧ limits.constants ≤ constants ∧
          c = .tooManyConstants) := by
  by_cases hroom : pending.length < limits.nesting
  · have hnot : ¬ limits.nesting ≤ pending.length := Nat.not_le.2 hroom
    simp only [hnot, false_and, false_or, hroom, true_and]
    by_cases hbegins : t.BeginsOperand
    · simp only [hbegins, not_true_eq_false, false_and, false_or]
      rcases hbegins with hkind | ⟨op, hop⟩ | ⟨value, hvalue⟩
      · simp [step_group hroom hkind, Token.isPooled, hkind]
      · have hop := UnaryOp.writtenBy_iff.1 hop
        simp [step_unary hroom hop, Token.isPooled_of_unary hop]
      · rw [step_literal hroom hread hvalue, Token.isPooled_of_literal hvalue]
        split
        · rename_i hfull
          simp [hfull, eq_comm]
        · rename_i hfits
          simp only [reduceCtorEq, false_iff]
          exact fun hfull => hfits ⟨hfull.1, hfull.2.1⟩
    · have hpooled : t.isPooled ≠ true := by
        intro hpooled
        obtain ⟨value, hvalue, -⟩ := Token.literal?_of_isPooled hpooled
        exact hbegins (.inr (.inr ⟨value, hvalue⟩))
      simp [step_of_not_beginsOperand hread hroom hbegins, hbegins, hpooled, eq_comm]
  · have hdeep : limits.nesting ≤ pending.length := Nat.not_lt.1 hroom
    have hrefused : step limits (.needsOperand pending constants) t = .error .nestsTooDeeply :=
      if_pos hdeep
    simp only [hrefused, Except.error.injEq, hdeep, hroom, true_and, false_and, or_false]
    exact eq_comm

/-- What is left after unwinding everything: nothing, or the innermost group before the rest. -/
theorem unwind_zero_cases (pending : List Pending) (e : Expr) :
    (Pending.group ∈ pending ∧ ∃ outer inner, unwind 0 pending e = (.group :: outer, inner)) ∨
      (Pending.group ∉ pending ∧ ∃ whole, unwind 0 pending e = ([], whole)) := by
  by_cases hgroup : Pending.group ∈ pending
  · obtain ⟨outer, houter⟩ := (group_mem_iff pending e).1 hgroup
    exact .inl ⟨hgroup, outer, _, Prod.ext houter rfl⟩
  · have hnothing : (unwind 0 pending e).1 = [] := by
      rw [unwind_zero_fst, List.dropWhile_eq_nil_iff]
      intro p hp
      rw [decide_eq_true_eq]
      exact fun heq => hgroup (heq ▸ hp)
    exact .inr ⟨hgroup, _, Prod.ext hnothing rfl⟩

/-- **Complaints after a complete operand.** -/
theorem step_hasOperand_eq_error_iff :
    step limits (.hasOperand pending constants e) t = .error c ↔
      ¬ t.JoinsOperands ∧
        ((Pending.group ∈ pending ∧ t.kind ≠ .rightParen ∧ c = .expectClosingParen) ∨
          (Pending.group ∉ pending ∧ c = .expectEnd)) := by
  rw [Token.joinsOperands_iff]
  simp only [step, takeOperator]
  cases hop : BinaryOp.ofToken? t.kind with
  | some op => simp
  | none =>
    rcases unwind_zero_cases pending e with ⟨hgroup, outer, inner, hunwind⟩ | ⟨hgroup, whole, hunwind⟩
    · by_cases hkind : t.kind = .rightParen <;> simp [hunwind, hgroup, hkind, eq_comm]
    · simp [hunwind, hgroup, eq_comm]

/-- **Complaints about the end of the text** where an operand must begin. -/
theorem finish_needsOperand_eq_error_iff {line : Nat} {d : Diagnostic} :
    (needsOperand pending constants).finish limits line = .error d ↔
      ∃ c : Complaint, d = c.atEnd line ∧
        ((limits.nesting ≤ pending.length ∧ c = .nestsTooDeeply) ∨
          (pending.length < limits.nesting ∧ c = .expectExpression)) := by
  simp only [finish]
  split
  · rename_i hdeep
    simp [hdeep, Nat.not_lt.2 hdeep, eq_comm]
  · rename_i hroom
    simp [Nat.not_le.1 hroom, hroom, eq_comm]

/-- **Complaints about the end of the text** after a complete operand. -/
theorem finish_hasOperand_eq_error_iff {line : Nat} {d : Diagnostic} :
    (hasOperand pending constants e).finish limits line = .error d ↔
      ∃ c : Complaint, d = c.atEnd line ∧ Pending.group ∈ pending ∧ c = .expectClosingParen := by
  simp only [finish]
  rcases unwind_zero_cases pending e with ⟨hgroup, outer, inner, hunwind⟩ | ⟨hgroup, whole, hunwind⟩
  · simp [hunwind, hgroup, eq_comm]
  · simp [hunwind, hgroup]

/-! ### Every complaint is about an offence -/

section Complaints

variable (hread : ∀ t ∈ ts, t.IsReadable)

include hread

/-- Offences where an operand must begin, by what waits there. -/
theorem offends_needsOperand_iff
    (hfeed : start.feed limits ts = .ok (.needsOperand pending constants)) {t? : Option Token} :
    Offends limits ts t? c ↔
      (limits.nesting ≤ pending.length ∧ c = .nestsTooDeeply) ∨
        (pending.length < limits.nesting ∧ (∀ t ∈ t?, ¬ t.BeginsOperand) ∧
          c = .expectExpression) ∨
        (pending.length < limits.nesting ∧ (∃ t ∈ t?, t.isPooled = true) ∧
          limits.constants ≤ constants ∧ c = .tooManyConstants) := by
  have hplace : AtOperand ts (pending.length + 1) := ⟨pending, reads_of_feed hread hfeed, rfl⟩
  have hcounts := counts_feed hread counts_start hfeed
  have hle : pending.length ≤ limits.nesting := hcounts.depth_le
  have hcount : constants = ts.countP Token.isPooled := hcounts.constants_eq
  have hfull : constants ≤ limits.constants := hcounts.constants_le
  constructor
  · have hknown {level : Nat} (h : AtOperand ts level) : level = pending.length + 1 := by
      obtain ⟨pending', heq, hlevel⟩ := atOperand_state h hread hfeed
      cases heq
      exact hlevel
    have helsewhere {grouped : Bool} (h : AfterOperand ts grouped) : False := by
      obtain ⟨_, _, _, heq, -⟩ := afterOperand_state h hread hfeed
      cases heq
    intro hoffends
    cases hoffends with
    | nestsTooDeeply h =>
      have hlevel := hknown h
      exact .inl ⟨by omega, rfl⟩
    | expectExpression h hlevel hbegins =>
      have hknown := hknown h
      exact .inr (.inl ⟨by omega, hbegins, rfl⟩)
    | @tooManyConstants t _ h hlevel hpooled hlimit =>
      have hknown := hknown h
      exact .inr (.inr ⟨by omega, ⟨t, rfl, hpooled⟩, by omega, rfl⟩)
    | expectClosingParen h _ => exact (helsewhere h).elim
    | expectEnd h _ => exact (helsewhere h).elim
  · rintro (⟨hdeep, rfl⟩ | ⟨hroom, hbegins, rfl⟩ | ⟨hroom, ⟨t, rfl, hpooled⟩, hlimit, rfl⟩)
    · obtain heq : pending.length = limits.nesting := Nat.le_antisymm hle hdeep
      exact .nestsTooDeeply (heq ▸ hplace)
    · exact .expectExpression hplace hroom hbegins
    · exact .tooManyConstants hplace hroom hpooled (by omega)

/-- Offences after a complete operand, by what waits around it. -/
theorem offends_hasOperand_iff
    (hfeed : start.feed limits ts = .ok (.hasOperand pending constants e)) {t? : Option Token} :
    Offends limits ts t? c ↔
      (∀ t ∈ t?, ¬ t.JoinsOperands) ∧
        ((Pending.group ∈ pending ∧ (∀ t ∈ t?, t.kind ≠ .rightParen) ∧ c = .expectClosingParen) ∨
          (Pending.group ∉ pending ∧ t?.isSome = true ∧ c = .expectEnd)) := by
  obtain ⟨before, own, heq, hopens, hown⟩ := reads_of_feed hread hfeed
  have hplace : AfterOperand ts (decide (Pending.group ∈ pending)) :=
    ⟨before, own, pending, e, heq, hopens, hown, rfl⟩
  constructor
  · have hknown {grouped : Bool} (h : AfterOperand ts grouped) :
        grouped = decide (Pending.group ∈ pending) := by
      obtain ⟨_, _, _, heq, hgrouped⟩ := afterOperand_state h hread hfeed
      cases heq
      exact hgrouped
    have helsewhere {level : Nat} (h : AtOperand ts level) : False := by
      obtain ⟨_, heq, -⟩ := atOperand_state h hread hfeed
      cases heq
    intro hoffends
    cases hoffends with
    | nestsTooDeeply h => exact (helsewhere h).elim
    | expectExpression h _ _ => exact (helsewhere h).elim
    | tooManyConstants h _ _ _ => exact (helsewhere h).elim
    | expectClosingParen h hnot =>
      have hgroup : Pending.group ∈ pending := decide_eq_true_iff.1 (hknown h).symm
      exact ⟨fun t ht => (hnot t ht).1, .inl ⟨hgroup, fun t ht => (hnot t ht).2, rfl⟩⟩
    | expectEnd h hjoins =>
      have hgroup : Pending.group ∉ pending := decide_eq_false_iff_not.1 (hknown h).symm
      exact ⟨by simpa using hjoins, .inr ⟨hgroup, rfl, rfl⟩⟩
  · rintro ⟨hjoins, ⟨hgroup, hkind, rfl⟩ | ⟨hgroup, hsome, rfl⟩⟩
    · rw [decide_eq_true hgroup] at hplace
      exact .expectClosingParen hplace fun t ht => ⟨hjoins t ht, hkind t ht⟩
    · rw [decide_eq_false hgroup] at hplace
      obtain ⟨t, rfl⟩ := Option.isSome_iff_exists.1 hsome
      exact .expectEnd hplace (hjoins t rfl)

/-- **A token is refused for what it does wrong.** -/
theorem step_eq_error_iff_offends (hfeed : start.feed limits ts = .ok state) (ht : t.IsReadable) :
    state.step limits t = .error c ↔ Offends limits ts (some t) c := by
  cases state with
  | needsOperand pending constants =>
    rw [step_needsOperand_eq_error_iff ht, offends_needsOperand_iff hread hfeed]
    simp
  | hasOperand pending constants operand =>
    rw [step_hasOperand_eq_error_iff, offends_hasOperand_iff hread hfeed]
    simp

/-- **The end of the text is refused for what is missing there.** -/
theorem finish_eq_error_iff_offends (hfeed : start.feed limits ts = .ok state) {line : Nat}
    {d : Diagnostic} :
    state.finish limits line = .error d ↔
      ∃ c : Complaint, d = c.atEnd line ∧ Offends limits ts none c := by
  cases state with
  | needsOperand pending constants =>
    simp only [finish_needsOperand_eq_error_iff, offends_needsOperand_iff hread hfeed]
    simp
  | hasOperand pending constants operand =>
    simp only [finish_hasOperand_eq_error_iff, offends_hasOperand_iff hread hfeed]
    simp

end Complaints

/-! ### Texts -/

theorem Complaint.message_injective : Function.Injective Complaint.message := by
  intro c c' h
  revert h
  cases c <;> cases c' <;> decide

/-- A parse that fails for another reason than a lexical error fails at a token, or at the end. -/
theorem parseFrom_eq_error {ending : Cursor.Ending} {d : Diagnostic} {tokens : List Token}
    (h : parseFrom limits state tokens ending = .error d) (hlocation : d.location ≠ .lexical) :
    ∃ before rest last, tokens = before ++ rest ∧ state.feed limits before = .ok last ∧
      ((∃ t more c, rest = t :: more ∧ last.step limits t = .error c ∧ d = c.atToken t) ∨
        ∃ line, rest = [] ∧ ending = .endOfText line ∧ last.finish limits line = .error d) := by
  induction tokens generalizing state with
  | nil =>
    refine ⟨[], [], state, rfl, rfl, .inr ?_⟩
    cases ending with
    | error err line =>
      cases h
      exact absurd rfl hlocation
    | endOfText line =>
      refine ⟨line, rfl, rfl, ?_⟩
      simp only [parseFrom] at h
      cases hfinish : state.finish limits line with
      | ok e =>
        rw [hfinish] at h
        cases h
      | error d' =>
        rw [hfinish] at h
        cases h
        rfl
  | cons t rest ih =>
    cases hstep : state.step limits t with
    | ok next =>
      rw [parseFrom_cons_of_ok hstep] at h
      obtain ⟨before, rest', last, rfl, hfeed, hstops⟩ := ih h
      exact ⟨t :: before, rest', last, rfl, by rw [feed_cons hstep, hfeed], hstops⟩
    | error c =>
      refine ⟨[], t :: rest, state, rfl, rfl, .inl ⟨t, rest, c, rfl, hstep, ?_⟩⟩
      cases state with
      | hasOperand pending constants operand =>
        simp only [step] at hstep
        simp only [parseFrom, hstep] at h
        cases h
        rfl
      | needsOperand pending constants =>
        simp only [step] at hstep
        simp only [parseFrom, hstep, refusal] at h
        split at h
        · cases h
          exact absurd rfl hlocation
        · cases h
          rfl

theorem compile_eq_error_iff {id : HeapId} {source : String} {d : Diagnostic} :
    compile id source = .error d ↔ parse source.toList = .error d := by
  unfold compile
  cases parse source.toList <;> simp [Except.map]

/-- A diagnostic points at a token, or at the end of a text. -/
def Diagnostic.PointsAt (d : Diagnostic) (ending : Cursor.Ending) : Option Token → Prop
  | some t => d.line = t.line ∧ d.location = .token (String.ofList t.text)
  | none => ending = .endOfText d.line ∧ d.location = .endOfText

/-- An expression within the limits goes on with a token behind others, or ends with them. -/
def GoesOn (limits : Limits) (ts : List Token) : Option Token → Prop
  | some t => ∃ more e, (∀ u ∈ more, u.IsReadable) ∧ Derives 0 (ts ++ t :: more) e ∧ e.Within limits
  | none => ∃ e, Derives 0 ts e ∧ e.Within limits

theorem not_goesOn_of_step (hread : ∀ u ∈ ts, u.IsReadable) (ht : t.IsReadable)
    (hfeed : start.feed limits ts = .ok state) (hstep : state.step limits t = .error c) :
    ¬ GoesOn limits ts (some t) := by
  rintro ⟨more, e, hmore, hderives, hwithin⟩
  have hall : ∀ u ∈ ts ++ t :: more, u.IsReadable :=
    List.forall_mem_append.2 ⟨hread, List.forall_mem_cons.2 ⟨ht, hmore⟩⟩
  obtain ⟨last, hlast, -⟩ := (feed_finish_iff hall 0).2 ⟨hderives, hwithin⟩
  rw [feed_append hfeed] at hlast
  obtain ⟨next, hnext, -⟩ := feed_cons_eq_ok hlast
  rw [hstep] at hnext
  cases hnext

theorem not_goesOn_of_finish (hread : ∀ u ∈ ts, u.IsReadable)
    (hfeed : start.feed limits ts = .ok state) {line : Nat} {d : Diagnostic}
    (hfinish : state.finish limits line = .error d) : ¬ GoesOn limits ts none := by
  rintro ⟨e, hderives, hwithin⟩
  obtain ⟨last, hlast, hdone⟩ := (feed_finish_iff hread line).2 ⟨hderives, hwithin⟩
  rw [hfeed] at hlast
  cases hlast
  rw [hfinish] at hdone
  cases hdone

/-- **The diagnostic of a text names the first offence and its place.** Unless it is about a lexical
error, it points at a token of the text or at its end. An expression begins with the tokens before
that place, but none within the limits goes on with what stands there; and the message is the
complaint about just that. -/
theorem compile_diagnosis (id : HeapId) (source : String) (d : Diagnostic)
    (h : compile id source = .error d) (hlocation : d.location ≠ .lexical) :
    ∃ before rest ending, (Cursor.start source.toList).tokens = (before ++ rest, ending) ∧
      d.PointsAt ending rest.head? ∧ Begins before ∧ ¬ GoesOn .standard before rest.head? ∧
      ∀ c : Complaint, d.message = c.message ↔ Offends .standard before rest.head? c := by
  have hparse := compile_eq_error_iff.1 h
  unfold parse at hparse
  generalize htokens : (Cursor.start source.toList).tokens = scanned at hparse ⊢
  obtain ⟨tokens, ending⟩ := scanned
  have hread := isReadable_of_tokens_eq htokens
  obtain ⟨before, rest, state, rfl, hfeed, hstops⟩ := parseFrom_eq_error hparse hlocation
  have hbefore : ∀ t ∈ before, t.IsReadable := fun t ht => hread t (List.mem_append_left _ ht)
  refine ⟨before, rest, ending, rfl, ?_⟩
  rcases hstops with ⟨t, more, c, rfl, hstep, rfl⟩ | ⟨line, rfl, rfl, hfinish⟩
  · have ht : t.IsReadable := hread t (by simp)
    refine ⟨⟨rfl, rfl⟩, (reads_of_feed hbefore hfeed).begins,
      not_goesOn_of_step hbefore ht hfeed hstep, ?_⟩
    intro c'
    rw [List.head?_cons, ← step_eq_error_iff_offends hbefore hfeed ht, hstep, Except.error.injEq]
    exact Complaint.message_injective.eq_iff
  · obtain ⟨c, rfl, hoffends⟩ := (finish_eq_error_iff_offends hbefore hfeed).1 hfinish
    refine ⟨⟨rfl, rfl⟩, (reads_of_feed hbefore hfeed).begins,
      not_goesOn_of_finish hbefore hfeed hfinish, ?_⟩
    intro c'
    constructor
    · intro hmessage
      rwa [← Complaint.message_injective hmessage]
    · intro hoffends'
      have hother : state.finish .standard line = .error (c'.atEnd line) :=
        (finish_eq_error_iff_offends hbefore hfeed).2 ⟨c', rfl, hoffends'⟩
      rw [hfinish] at hother
      injection hother with heq
      exact congrArg Diagnostic.message heq

/-- A group that is still open where a unary operator follows its operand. -/
theorem compile_diagnosis_unclosed :
    let d : Diagnostic := ⟨2, .token "!", "Expect ')' after expression."⟩
    compile ⟨1⟩ "(-1 >=\n2 !x)" = .error d ∧ d.location ≠ .lexical ∧
      ∃ before rest ending,
        (Cursor.start "(-1 >=\n2 !x)".toList).tokens = (before ++ rest, ending) ∧
        d.PointsAt ending rest.head? ∧ Begins before ∧ ¬ GoesOn .standard before rest.head? ∧
        Offends .standard before rest.head? .expectClosingParen := by
  intro d
  have hparse : parse "(-1 >=\n2 !x)".toList = .error d := by decide +kernel
  have hcompile : compile ⟨1⟩ "(-1 >=\n2 !x)" = .error d := compile_eq_error_iff.2 hparse
  have hlocation : d.location ≠ .lexical := by decide
  obtain ⟨before, rest, ending, htokens, hpoints, hbegins, hends, hmessage⟩ :=
    compile_diagnosis ⟨1⟩ _ d hcompile hlocation
  exact ⟨hcompile, hlocation, before, rest, ending, htokens, hpoints, hbegins, hends,
    (hmessage .expectClosingParen).1 rfl⟩

end ExprMachine
