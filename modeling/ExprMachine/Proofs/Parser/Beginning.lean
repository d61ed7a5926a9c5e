import ExprMachine.Proofs.Parser.Soundness

/-!
# Beginnings of expressions

What the parser has accepted so far begins an expression, and the state it is in can be told from
the tokens alone.

* `Begins` — tokens that an expression begins with; `Reads.begins` says that the parser accepts no
  others;
* `ParserState.Counts`, `counts_feed` — a state counts the numbers and strings before it, and keeps
  to the limits;
* `needsOperand_of_opens` — what waits in a state is what the tokens have left open;
* `AtOperand`, `AfterOperand` — the two kinds of places in a text, told by the grammar;
  `atOperand_state` and `afterOperand_state` are the states there.
-/

namespace ExprMachine

open ParserState

variable {limits : Limits} {ts : List Token} {pending : List Pending} {e : Expr}

/-! ### Tokens that an expression begins with -/

/-- An expression begins with the tokens. -/
def Begins (ts : List Token) : Prop :=
  ∃ more e, (∀ t ∈ more, t.IsReadable) ∧ Derives 0 (ts ++ more) e

/-- Unwinding everything stops at the innermost group. -/
theorem unwind_zero_fst (pending : List Pending) (e : Expr) :
    (unwind 0 pending e).1 = pending.dropWhile (· ≠ .group) := by
  induction pending generalizing e with
  | nil => rfl
  | cons p outer ih =>
    cases p with
    | group => rfl
    | unary op => exact ih _
    | binary op left => exact ih _

/-- What is open can be closed: a parenthesis for each group, from the innermost outwards. -/
theorem Opens.begins {before own : List Token} (hopens : Opens before pending)
    (hown : Derives 5 own e) : Begins (before ++ own) := by
  induction hn : pending.length using Nat.strongRecOn generalizing before own pending e with
  | ind n ih =>
    obtain ⟨before', own', heq, hopens', -, hderives⟩ :=
      unwind_derives hopens hown (holds_unary pending) (Nat.zero_le 5) (Nat.le_refl 5)
    have hlength := unwind_length 0 pending e
    have hstops := unwind_zero_fst pending e
    rw [heq]
    generalize (unwind 0 pending e).1 = waiting at hopens' hlength hstops
    cases hopens' with
    | nil =>
      refine ⟨[], (unwind 0 pending e).2, nofun, ?_⟩
      rw [List.append_nil]
      exact hderives
    | @group opening ts outer houter hkind =>
      let closing : Token := ⟨.rightParen, [')'], 0⟩
      have hgroup : Derives 6 (opening :: own' ++ [closing]) _ := .group hkind hderives rfl
      have hlt : outer.length < n := by
        rw [List.length_cons] at hlength
        omega
      obtain ⟨more, whole, hread, hwhole⟩ :=
        ih outer.length hlt houter (.lift (by omega) hgroup) rfl
      refine ⟨closing :: more, whole, List.forall_mem_cons.2 ⟨rfl, hread⟩, ?_⟩
      simpa [List.append_assoc] using hwhole
    | unary _ _ | binary _ _ _ _ =>
      -- no operator waits behind the innermost group once all are unwound
      have hhead := List.head?_dropWhile_not (fun p => decide (p ≠ Pending.group)) pending
      rw [← hstops] at hhead
      simp at hhead

/-- **What has been read begins an expression.** -/
theorem Reads.begins {state : ParserState} (h : Reads ts state) : Begins ts := by
  cases state with
  | needsOperand pending constants =>
    let word : Token := ⟨.keyword .nilWord, "nil".toList, 0⟩
    have hword : Derives 6 [word] _ := .literal rfl
    obtain ⟨more, e, hread, hwhole⟩ := Opens.begins h (.lift (by omega) hword)
    refine ⟨word :: more, e, List.forall_mem_cons.2 ⟨rfl, hread⟩, ?_⟩
    simpa [List.append_assoc] using hwhole
  | hasOperand pending constants operand =>
    obtain ⟨before, own, rfl, hopens, hown⟩ := h
    exact hopens.begins hown

/-- A text is read from nothing. -/
theorem reads_of_feed {state : ParserState} (hread : ∀ t ∈ ts, t.IsReadable)
    (hfeed : start.feed limits ts = .ok state) : Reads ts state := by
  have hstart : Reads [] start := Opens.nil
  exact reads_feed hread hstart hfeed

/-! ### The state after tokens -/

namespace ParserState

/-- The number of pooled literals so far. -/
def constants : ParserState → Nat
  | needsOperand _ constants => constants
  | hasOperand _ constants _ => constants

/-- How deep the operand at hand nests: what waits, and the operand itself once it has begun. -/
def depth : ParserState → Nat
  | needsOperand pending _ => pending.length
  | hasOperand pending _ _ => pending.length + 1

/-- A state that tokens can lead to: it counts their numbers and strings, and keeps to the
limits. -/
structure Counts (limits : Limits) (ts : List Token) (state : ParserState) : Prop where
  constants_eq : state.constants = ts.countP Token.isPooled
  constants_le : state.constants ≤ limits.constants
  depth_le : state.depth ≤ limits.nesting

end ParserState

variable {state next last : ParserState} {t : Token}

theorem Token.isPooled_of_unary {op : UnaryOp} (h : UnaryOp.ofToken? t.kind = some op) :
    t.isPooled = false := by
  rw [← t.isSome_constant?, Token.constant?_of_unary (UnaryOp.writtenBy_iff.2 h)]
  rfl

theorem Token.isPooled_of_binary {op : BinaryOp} (h : BinaryOp.ofToken? t.kind = some op) :
    t.isPooled = false := by
  rw [← t.isSome_constant?, Token.constant?_of_binary (BinaryOp.standsAt_iff.2 ⟨h, rfl⟩)]
  rfl

/-- A step that reads no number and no string, and goes no deeper than the limit. -/
theorem ParserState.Counts.pass (h : state.Counts limits ts) (ht : t.isPooled = false)
    (hconstants : next.constants = state.constants) (hdepth : next.depth ≤ limits.nesting) :
    next.Counts limits (ts ++ [t]) where
  constants_eq := by simp [hconstants, h.constants_eq, ht]
  constants_le := hconstants ▸ h.constants_le
  depth_le := hdepth

theorem counts_step (hread : t.IsReadable) (h : state.Counts limits ts)
    (hstep : state.step limits t = .ok next) : next.Counts limits (ts ++ [t]) := by
  cases state with
  | needsOperand pending constants =>
    have hroom := lt_nesting_of_step hstep
    rcases step_needsOperand_eq_ok hread hstep with
      ⟨hkind, rfl⟩ | ⟨op, hop, rfl⟩ | ⟨value, counted, hvalue, rfl⟩
    · have hpooled : t.isPooled = false := by simp [Token.isPooled, hkind]
      exact h.pass hpooled rfl hroom
    · exact h.pass (Token.isPooled_of_unary hop) rfl hroom
    · have hpooled : (Expr.literal value t.line).pooled.length = [t].countP Token.isPooled :=
        (Derives.literal hvalue).length_pooled
      rw [step_literal hroom hread hvalue] at hstep
      split at hstep
      · cases hstep
      · rename_i hfits
        cases hstep
        refine ⟨?_, ?_, hroom⟩
        · show constants + _ = _
          rw [List.countP_append, ← hpooled, ← h.constants_eq]
          rfl
        · show constants + (Expr.literal value t.line).pooled.length ≤ limits.constants
          have hle : constants ≤ limits.constants := h.constants_le
          cases hvalue : value.isPooled with
          | false => simpa [Expr.pooled, hvalue] using hle
          | true =>
            have hlt : ¬ limits.constants ≤ constants := fun hfull => hfits ⟨hvalue, hfull⟩
            simp only [Expr.pooled, hvalue, if_true, List.length_singleton]
            omega
  | hasOperand pending constants operand =>
    have hdepth : pending.length + 1 ≤ limits.nesting := h.depth_le
    rcases step_hasOperand_eq_ok hstep with ⟨op, hop, rfl⟩ | ⟨outer, inner, hkind, hunwind, rfl⟩
    · have hlength := unwind_length op.rank pending operand
      refine h.pass (Token.isPooled_of_binary hop) rfl ?_
      simp only [ParserState.depth, List.length_cons]
      omega
    · have hlength := unwind_length 0 pending operand
      rw [hunwind, List.length_cons] at hlength
      have hpooled : t.isPooled = false := by simp [Token.isPooled, hkind]
      refine h.pass hpooled rfl ?_
      simp only [ParserState.depth]
      omega

theorem counts_feed {us : List Token} (hread : ∀ t ∈ us, t.IsReadable)
    (h : state.Counts limits ts) (hfeed : state.feed limits us = .ok last) :
    last.Counts limits (ts ++ us) := by
  induction us generalizing ts state with
  | nil =>
    cases hfeed
    rwa [List.append_nil]
  | cons t us ih =>
    obtain ⟨next, hstep, hrest⟩ := feed_cons_eq_ok hfeed
    have hnext := counts_step (hread t (by simp)) h hstep
    have hall := ih (fun u hu => hread u (by simp [hu])) hnext hrest
    rwa [List.append_assoc] at hall

/-- Accepted tokens that derive a tree leave an operand in hand that unwinds like the tree. -/
theorem operand_of_feed {level constants : Nat} {own : List Token} (h : Derives level own e)
    (hread : ∀ t ∈ own, t.IsReadable) (hholds : Holds level pending)
    (hcount : constants ≤ limits.constants)
    (hfeed : feed limits (.needsOperand pending constants) own = .ok last) :
    ∃ outer counted operand, last = .hasOperand outer counted operand ∧
      ∀ rank ≤ level, unwind rank outer operand = unwind rank pending e := by
  obtain ⟨hnest, hpool⟩ := within_of_feed h hread pending constants hholds hcount hfeed
  obtain ⟨outer, operand, hstate, hunwind⟩ :=
    feed_of_derives h hread pending constants hholds hnest hpool
  rw [hstate] at hfeed
  cases hfeed
  exact ⟨outer, _, operand, rfl, hunwind⟩

theorem counts_start : ParserState.start.Counts limits [] :=
  ⟨rfl, Nat.zero_le _, Nat.zero_le _⟩

/-- What tokens leave open is what waits in the state after them. -/
theorem needsOperand_of_opens (h : Opens ts pending) (hread : ∀ t ∈ ts, t.IsReadable)
    (hfeed : start.feed limits ts = .ok state) :
    state = .needsOperand pending (ts.countP Token.isPooled) := by
  suffices hwaits : ∃ constants, state = .needsOperand pending constants by
    obtain ⟨constants, rfl⟩ := hwaits
    have hcounts := counts_feed hread counts_start hfeed
    exact congrArg _ hcounts.constants_eq
  induction h generalizing state with
  | nil =>
    cases hfeed
    exact ⟨0, rfl⟩
  | @group t ts outer houter hkind ih =>
    obtain ⟨middle, hbefore, hrest⟩ := feed_append_eq_ok hfeed
    obtain ⟨constants, rfl⟩ := ih (fun u hu => hread u (by simp [hu])) hbefore
    obtain ⟨next, hstep, hdone⟩ := feed_cons_eq_ok hrest
    rw [step_group (lt_nesting_of_step hstep) hkind] at hstep
    cases hstep
    cases hdone
    exact ⟨constants, rfl⟩
  | @unary t op ts outer houter hop ih =>
    obtain ⟨middle, hbefore, hrest⟩ := feed_append_eq_ok hfeed
    obtain ⟨constants, rfl⟩ := ih (fun u hu => hread u (by simp [hu])) hbefore
    obtain ⟨next, hstep, hdone⟩ := feed_cons_eq_ok hrest
    rw [step_unary (lt_nesting_of_step hstep) hop] at hstep
    cases hstep
    cases hdone
    exact ⟨constants, rfl⟩
  | @binary t op ts own outer left houter hholds hleft hop ih =>
    obtain ⟨middle, hboth, hrest⟩ := feed_append_eq_ok hfeed
    obtain ⟨first, hbefore, hown⟩ := feed_append_eq_ok hboth
    have hreadts : ∀ u ∈ ts, u.IsReadable := fun u hu => hread u (by simp [hu])
    obtain ⟨constants, rfl⟩ := ih hreadts hbefore
    have hcounts := counts_feed hreadts counts_start hbefore
    obtain ⟨outer', counted, operand, rfl, hunwind⟩ :=
      operand_of_feed hleft (fun u hu => hread u (by simp [hu])) hholds hcounts.constants_le hown
    obtain ⟨next, hstep, hdone⟩ := feed_cons_eq_ok hrest
    have hwaits := (hunwind op.rank (Nat.le_refl _)).trans (unwind_of_holds hholds op.rank_le left)
    rw [step_operator hop hwaits] at hstep
    cases hstep
    cases hdone
    exact ⟨counted, rfl⟩

/-! ### Places -/

/-- The tokens end where an operand must begin. Its level of nesting counts the groups, the unary
operators and the right operands that are open there, and the operand itself. -/
def AtOperand (ts : List Token) (level : Nat) : Prop :=
  ∃ pending, Opens ts pending ∧ level = pending.length + 1

/-- The tokens end with a complete operand; `grouped` tells whether a group is open around it. -/
def AfterOperand (ts : List Token) (grouped : Bool) : Prop :=
  ∃ before own pending e, ts = before ++ own ∧ Opens before pending ∧ Derives 5 own e ∧
    grouped = decide (Pending.group ∈ pending)

theorem atOperand_state {level : Nat} (h : AtOperand ts level) (hread : ∀ t ∈ ts, t.IsReadable)
    (hfeed : start.feed limits ts = .ok state) :
    ∃ pending, state = .needsOperand pending (ts.countP Token.isPooled) ∧
      level = pending.length + 1 := by
  obtain ⟨pending, hopens, hlevel⟩ := h
  exact ⟨pending, needsOperand_of_opens hopens hread hfeed, hlevel⟩

theorem group_mem_iff (pending : List Pending) (e : Expr) :
    Pending.group ∈ pending ↔ ∃ outer, (unwind 0 pending e).1 = .group :: outer := by
  rw [unwind_zero_fst]
  induction pending with
  | nil => simp
  | cons p outer ih => cases p <;> simp [ih]

theorem afterOperand_state {grouped : Bool} (h : AfterOperand ts grouped)
    (hread : ∀ t ∈ ts, t.IsReadable) (hfeed : start.feed limits ts = .ok state) :
    ∃ pending constants operand, state = .hasOperand pending constants operand ∧
      grouped = decide (Pending.group ∈ pending) := by
  obtain ⟨before, own, pending, e, rfl, hopens, hown, hgrouped⟩ := h
  obtain ⟨middle, hbefore, hrest⟩ := feed_append_eq_ok hfeed
  have hreadbefore : ∀ t ∈ before, t.IsReadable := fun t ht => hread t (by simp [ht])
  have hcounts := counts_feed hreadbefore counts_start hbefore
  obtain rfl := needsOperand_of_opens hopens hreadbefore hbefore
  obtain ⟨outer, counted, operand, rfl, hunwind⟩ :=
    operand_of_feed hown (fun t ht => hread t (by simp [ht])) (holds_unary pending)
      hcounts.constants_le hrest
  refine ⟨outer, counted, operand, rfl, ?_⟩
  have hsame : Pending.group ∈ outer ↔ Pending.group ∈ pending := by
    rw [group_mem_iff outer operand, group_mem_iff pending e, hunwind 0 (Nat.zero_le 5)]
  rw [hgrouped]
  exact decide_eq_decide.2 hsame.symm

end ExprMachine
