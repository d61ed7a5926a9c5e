import ExprMachine.Proofs.Parser.Run

/-!
# The parser accepts what the grammar derives

* `Holds` — what waits lets an operand of a level stand;
* `feed_of_derives` — tokens that derive a tree within the limits lead to an operand, and unwinding
  cannot tell that operand from the tree, whatever waits before it;
* `within_of_feed` — a derived tree whose tokens are accepted keeps to the limits.
-/

namespace ExprMachine

open ParserState

/-! ### What waits -/

/-- What waits lets an operand of a level stand: nothing innermost binds at least as tightly. -/
def Holds (level : Nat) : List Pending → Prop
  | .unary _ :: _ => 5 ≤ level
  | .binary op _ :: _ => op.rank < level
  | _ => True

theorem Holds.mono {level tighter : Nat} {pending : List Pending} (h : Holds level pending)
    (hle : level ≤ tighter) : Holds tighter pending := by
  cases pending with
  | nil => trivial
  | cons p outer =>
    cases p with
    | group => trivial
    | unary op => exact Nat.le_trans h hle
    | binary op left => exact Nat.lt_of_lt_of_le h hle

/-- A unary operand can stand anywhere. -/
theorem holds_unary (pending : List Pending) : Holds 5 pending := by
  cases pending with
  | nil => trivial
  | cons p outer =>
    cases p with
    | group => trivial
    | unary op => exact Nat.le_refl 5
    | binary op left => exact Nat.lt_succ_of_le op.rank_le

theorem unwind_of_holds {rank : Nat} {pending : List Pending} (h : Holds rank pending)
    (hrank : rank ≤ 4) (e : Expr) : unwind rank pending e = (pending, e) := by
  cases pending with
  | nil => rfl
  | cons p outer =>
    cases p with
    | group => rfl
    | unary op =>
      have : 5 ≤ rank := h
      omega
    | binary op left =>
      simp only [unwind]
      rw [if_neg (Nat.not_le.2 h)]

/-! ### Derived tokens -/

variable {limits : Limits} {level : Nat} {ts : List Token} {e : Expr}

/-- **Completeness.** Tokens that derive a tree lead to an operand, and unwinding up to the tree's
level cannot tell that operand from the tree. -/
theorem feed_of_derives (h : Derives level ts e) (hread : ∀ t ∈ ts, t.IsReadable)
    (pending : List Pending) (constants : Nat) (hholds : Holds level pending)
    (hnest : pending.length + e.nest ≤ limits.nesting)
    (hpool : constants + e.pooled.length ≤ limits.constants) :
    ∃ outer operand,
      feed limits (.needsOperand pending constants) ts =
        .ok (.hasOperand outer (constants + e.pooled.length) operand) ∧
      ∀ rank ≤ level, unwind rank outer operand = unwind rank pending e := by
  induction h generalizing pending constants with
  | @literal t value hvalue =>
    have hroom : pending.length < limits.nesting := by
      simp only [Expr.nest] at hnest
      omega
    have hfits : ¬(value.isPooled = true ∧ limits.constants ≤ constants) := by
      intro hrefused
      obtain ⟨hpooled, hfull⟩ := hrefused
      simp only [Expr.pooled, hpooled, if_true, List.length_singleton] at hpool
      omega
    refine ⟨pending, .literal value t.line, ?_, fun rank _ => rfl⟩
    rw [feed_cons ((step_literal hroom (hread t (by simp)) hvalue).trans (if_neg hfits))]
    rfl
  | @group opening closing ts inner hopen hinner hclose ih =>
    have hroom : pending.length < limits.nesting := by
      simp only [Expr.nest] at hnest
      omega
    obtain ⟨outer, operand, hfeed, hunwind⟩ := ih (fun t ht => hread t (by simp [ht]))
      (.group :: pending) constants trivial
      (by simp only [Expr.nest, List.length_cons] at hnest ⊢; omega) hpool
    refine ⟨pending, .group inner closing.line, ?_, fun rank _ => rfl⟩
    rw [List.cons_append, feed_cons (step_group hroom hopen), feed_append hfeed]
    exact feed_cons (step_closing hclose (hunwind 0 (Nat.le_refl 0)))
  | @unary t op ts operand hop hoperand ih =>
    have hroom : pending.length < limits.nesting := by
      simp only [Expr.nest] at hnest
      omega
    obtain ⟨outer, last, hfeed, hunwind⟩ := ih (fun t ht => hread t (by simp [ht]))
      (.unary op :: pending) constants (Nat.le_refl 5)
      (by simp only [Expr.nest, List.length_cons] at hnest ⊢; omega) hpool
    refine ⟨outer, last, ?_, fun rank hrank => hunwind rank hrank⟩
    rw [feed_cons (step_unary hroom (UnaryOp.writtenBy_iff.1 hop))]
    exact hfeed
  | @binary t op level before after left right hstands hleft hright ihl ihr =>
    obtain ⟨hop, rfl⟩ := BinaryOp.standsAt_iff.1 hstands
    simp only [Expr.nest] at hnest
    simp only [Expr.pooled, List.length_append] at hpool ⊢
    obtain ⟨outer, operand, hfeed, hunwind⟩ := ihl (fun t ht => hread t (by simp [ht]))
      pending constants hholds (by omega) (by omega)
    -- the operator finds the left operand complete, and everything before it waiting
    have hwaits := (hunwind op.rank (Nat.le_refl _)).trans
      (unwind_of_holds hholds op.rank_le left)
    obtain ⟨outer', operand', hfeed', hunwind'⟩ := ihr (fun t ht => hread t (by simp [ht]))
      (.binary op left :: pending) (constants + left.pooled.length) (Nat.lt_succ_self op.rank)
      (by simp only [List.length_cons]; omega) (by omega)
    refine ⟨outer', operand', ?_, fun rank hrank => ?_⟩
    · rw [feed_append hfeed, feed_cons (step_operator hop hwaits), hfeed', Nat.add_assoc]
    · rw [hunwind' rank (by omega)]
      simp only [unwind]
      rw [if_pos hrank]
  | lift hlt hderives ih =>
    obtain ⟨outer, operand, hfeed, hunwind⟩ := ih hread pending constants
      (hholds.mono (Nat.le_succ _)) hnest hpool
    exact ⟨outer, operand, hfeed, fun rank hrank => hunwind rank (by omega)⟩

/-- A derived tree whose tokens are accepted keeps to the limits. -/
theorem within_of_feed (h : Derives level ts e) (hread : ∀ t ∈ ts, t.IsReadable)
    (pending : List Pending) (constants : Nat) (hholds : Holds level pending)
    (hcount : constants ≤ limits.constants) {last : ParserState}
    (hfeed : feed limits (.needsOperand pending constants) ts = .ok last) :
    pending.length + e.nest ≤ limits.nesting ∧
      constants + e.pooled.length ≤ limits.constants := by
  induction h generalizing pending constants last with
  | @literal t value hvalue =>
    obtain ⟨next, hstep, -⟩ := feed_cons_eq_ok hfeed
    have hroom := lt_nesting_of_step hstep
    rw [step_literal hroom (hread t (by simp)) hvalue] at hstep
    refine ⟨by simp only [Expr.nest]; omega, ?_⟩
    cases hpooled : value.isPooled with
    | false => simpa [Expr.pooled, hpooled] using hcount
    | true =>
      have hfits : constants < limits.constants := by
        refine Nat.lt_of_not_le fun hfull => ?_
        rw [if_pos ⟨hpooled, hfull⟩] at hstep
        cases hstep
      simp only [Expr.pooled, hpooled, if_true, List.length_singleton]
      omega
  | @group opening closing ts inner hopen _ _ ih =>
    obtain ⟨next, hstep, hrest⟩ := feed_cons_eq_ok hfeed
    rw [step_group (lt_nesting_of_step hstep) hopen] at hstep
    cases hstep
    obtain ⟨middle, hinner, -⟩ := feed_append_eq_ok hrest
    have hwithin := ih (fun t ht => hread t (by simp [ht])) (.group :: pending) constants trivial
      hcount hinner
    simp only [Expr.nest, Expr.pooled, List.length_cons] at hwithin ⊢
    omega
  | @unary t op ts operand hop _ ih =>
    obtain ⟨next, hstep, hrest⟩ := feed_cons_eq_ok hfeed
    rw [step_unary (lt_nesting_of_step hstep) (UnaryOp.writtenBy_iff.1 hop)] at hstep
    cases hstep
    have hwithin := ih (fun t ht => hread t (by simp [ht])) (.unary op :: pending) constants
      (Nat.le_refl 5) hcount hrest
    simp only [Expr.nest, Expr.pooled, List.length_cons] at hwithin ⊢
    omega
  | @binary t op level before after left right hstands hleft _ ihl ihr =>
    obtain ⟨hop, rfl⟩ := BinaryOp.standsAt_iff.1 hstands
    have hreadl : ∀ t ∈ before, t.IsReadable := fun t ht => hread t (by simp [ht])
    obtain ⟨middle, hbefore, hrest⟩ := feed_append_eq_ok hfeed
    obtain ⟨hnestl, hpooll⟩ := ihl hreadl pending constants hholds hcount hbefore
    -- the left operand is complete, so the state before the operator is known
    obtain ⟨outer, operand, hstate, hunwind⟩ :=
      feed_of_derives hleft hreadl pending constants hholds hnestl hpooll
    rw [hstate] at hbefore
    cases hbefore
    have hwaits := (hunwind op.rank (Nat.le_refl _)).trans (unwind_of_holds hholds op.rank_le left)
    rw [feed_cons (step_operator hop hwaits)] at hrest
    have hwithin := ihr (fun t ht => hread t (by simp [ht])) (.binary op left :: pending)
      (constants + left.pooled.length) (Nat.lt_succ_self op.rank) hpooll hrest
    simp only [Expr.nest, Expr.pooled, List.length_cons, List.length_append] at hwithin ⊢
    omega
  | lift _ _ ih => exact ih hread pending constants (hholds.mono (Nat.le_succ _)) hcount hfeed

end ExprMachine
