import ExprMachine.Proofs.Parser.Completeness

/-!
# The parser accepts nothing else

* `Opens`, `Reads` — what the tokens read so far have become in a state;
* `reads_step` — each step keeps that, and `unwind_derives` is its heart;
* `feed_finish_iff` — tokens are accepted with a tree exactly if they derive it and it keeps to the
  limits;
* `Derives.unique` — the grammar is unambiguous.
-/

namespace ExprMachine

open ParserState

variable {limits : Limits} {level : Nat} {ts : List Token} {e : Expr}

/-! ### What has been read -/

/-- Tokens that leave groups and operators waiting. -/
inductive Opens : List Token → List Pending → Prop
  | nil : Opens [] []
  | group {t : Token} {ts : List Token} {outer : List Pending} :
      Opens ts outer → t.kind = .leftParen → Opens (ts ++ [t]) (.group :: outer)
  | unary {t : Token} {op : UnaryOp} {ts : List Token} {outer : List Pending} :
      Opens ts outer → UnaryOp.ofToken? t.kind = some op →
      Opens (ts ++ [t]) (.unary op :: outer)
  | binary {t : Token} {op : BinaryOp} {ts own : List Token} {outer : List Pending} {left : Expr} :
      Opens ts outer → Holds op.rank outer → Derives op.rank own left →
      BinaryOp.ofToken? t.kind = some op →
      Opens (ts ++ own ++ [t]) (.binary op left :: outer)

/-- What tokens have become in a state. -/
def Reads (ts : List Token) : ParserState → Prop
  | .needsOperand pending _ => Opens ts pending
  | .hasOperand pending _ e => ∃ before own, ts = before ++ own ∧ Opens before pending ∧
      Derives 5 own e

/-- Unwinding moves tokens from what waits to the operand. The operand may have any level that what
waits allows; at the end it has the level of the unwinding. -/
theorem unwind_derives {before own : List Token} {pending : List Pending} {rank : Nat}
    (hopens : Opens before pending) (h : Derives level own e) (hholds : Holds level pending)
    (hrank : rank ≤ level) (hlevel : level ≤ 5) :
    ∃ before' own', before ++ own = before' ++ own' ∧ Opens before' (unwind rank pending e).1 ∧
      Holds rank (unwind rank pending e).1 ∧ Derives rank own' (unwind rank pending e).2 := by
  induction hopens generalizing level own e with
  | nil => exact ⟨[], own, rfl, .nil, trivial, h.weaken hrank (by omega)⟩
  | @group t ts outer houter hkind _ =>
    exact ⟨_, own, rfl, .group houter hkind, trivial, h.weaken hrank (by omega)⟩
  | @unary t op ts outer houter hop ih =>
    obtain rfl : level = 5 := Nat.le_antisymm hlevel hholds
    have hderives : Derives 5 (t :: own) (.unary op e) := .unary (UnaryOp.writtenBy_iff.2 hop) h
    obtain ⟨before', own', heq, hrest⟩ := ih hderives (holds_unary outer) hrank hlevel
    exact ⟨before', own', by rw [← heq, List.append_assoc]; rfl, hrest⟩
  | @binary t op ts left_ outer left houter houterholds hleft hop ih =>
    simp only [unwind]
    split
    · rename_i hbinds
      have hlt : op.rank < level := hholds
      have hright : Derives (op.rank + 1) own e := h.weaken hlt (by omega)
      obtain ⟨before', own', heq, hrest⟩ :=
        ih (.binary (BinaryOp.standsAt_iff.2 ⟨hop, rfl⟩) hleft hright) houterholds hbinds
          (by omega)
      refine ⟨before', own', ?_, hrest⟩
      rw [← heq]
      simp
    · rename_i hstops
      exact ⟨_, own, rfl, .binary houter houterholds hleft hop, Nat.not_le.1 hstops,
        h.weaken hrank (by omega)⟩

/-- **Soundness of a step.** -/
theorem reads_step {state next : ParserState} {t : Token} (hread : t.IsReadable)
    (h : Reads ts state) (hstep : state.step limits t = .ok next) : Reads (ts ++ [t]) next := by
  cases state with
  | needsOperand pending constants =>
    rcases step_needsOperand_eq_ok hread hstep with
      ⟨hkind, rfl⟩ | ⟨op, hop, rfl⟩ | ⟨value, counted, hvalue, rfl⟩
    · exact .group h hkind
    · exact .unary h hop
    · exact ⟨ts, [t], rfl, h, .lift (by omega) (.literal hvalue)⟩
  | hasOperand pending constants operand =>
    obtain ⟨before, own, rfl, hopens, hown⟩ := h
    rcases step_hasOperand_eq_ok hstep with ⟨op, hop, rfl⟩ | ⟨outer, inner, hkind, hunwind, rfl⟩
    · have hrank : op.rank ≤ 5 := Nat.le_succ_of_le op.rank_le
      obtain ⟨before', own', heq, hopens', hholds, hleft⟩ :=
        unwind_derives hopens hown (holds_unary pending) hrank (Nat.le_refl 5)
      rw [heq]
      exact .binary hopens' hholds hleft hop
    · obtain ⟨before', own', heq, hopens', -, hinner⟩ :=
        unwind_derives hopens hown (holds_unary pending) (Nat.zero_le 5) (Nat.le_refl 5)
      rw [hunwind] at hopens' hinner
      cases hopens' with
      | @group opening ts' _ houter hopening =>
        refine ⟨ts', opening :: own' ++ [t], ?_, houter,
          .lift (by omega) (.group hopening hinner hkind)⟩
        rw [heq]
        simp

theorem reads_feed {us : List Token} {state last : ParserState} (hread : ∀ t ∈ us, t.IsReadable)
    (h : Reads ts state) (hfeed : state.feed limits us = .ok last) : Reads (ts ++ us) last := by
  induction us generalizing ts state with
  | nil =>
    cases hfeed
    rwa [List.append_nil]
  | cons t us ih =>
    obtain ⟨next, hstep, hrest⟩ := feed_cons_eq_ok hfeed
    have hnext := reads_step (hread t (by simp)) h hstep
    have hall := ih (fun u hu => hread u (by simp [hu])) hnext hrest
    rwa [List.append_assoc] at hall

theorem derives_of_finish {state : ParserState} {line : Nat} (h : Reads ts state)
    (hfinish : state.finish limits line = .ok e) : Derives 0 ts e := by
  cases state with
  | needsOperand pending constants =>
    simp only [finish] at hfinish
    split at hfinish <;> cases hfinish
  | hasOperand pending constants operand =>
    obtain ⟨before, own, rfl, hopens, hown⟩ := h
    obtain ⟨before', own', heq, hopens', -, hderives⟩ :=
      unwind_derives hopens hown (holds_unary pending) (Nat.zero_le 5) (Nat.le_refl 5)
    simp only [finish] at hfinish
    split at hfinish
    · rename_i e' hunwind
      cases hfinish
      rw [hunwind] at hopens' hderives
      cases hopens'
      rw [heq]
      exact hderives
    · cases hfinish

/-! ### Whole token sequences -/

theorem finish_of_unwind {outer : List Pending} {constants line : Nat} {operand : Expr}
    (h : unwind 0 outer operand = ([], e)) :
    (ParserState.hasOperand outer constants operand).finish limits line = .ok e := by
  simp only [finish, h]

/-- Tokens are accepted with a tree exactly if they derive it and it keeps to the limits. -/
theorem feed_finish_iff (hread : ∀ t ∈ ts, t.IsReadable) (line : Nat) :
    (∃ last, ParserState.start.feed limits ts = .ok last ∧ last.finish limits line = .ok e) ↔
      Derives 0 ts e ∧ e.Within limits := by
  constructor
  · intro haccepted
    obtain ⟨last, hfeed, hfinish⟩ := haccepted
    have hstart : Reads [] ParserState.start := Opens.nil
    have hreads : Reads ts last := reads_feed hread hstart hfeed
    have hderives := derives_of_finish hreads hfinish
    have hwithin := within_of_feed hderives hread [] 0 trivial (Nat.zero_le _) hfeed
    exact ⟨hderives, by simpa using hwithin.1, by simpa using hwithin.2⟩
  · intro hderived
    obtain ⟨hderives, hwithin⟩ := hderived
    obtain ⟨outer, operand, hfeed, hunwind⟩ := feed_of_derives hderives hread [] 0 trivial
      (by simpa using hwithin.nest_le) (by simpa using hwithin.length_pooled_le)
    exact ⟨_, hfeed, finish_of_unwind (hunwind 0 (Nat.le_refl 0))⟩

/-- **The grammar is unambiguous.** Limits that allow both of two trees let the parser find both,
and it finds one. -/
theorem Derives.unique {e' : Expr} (h : Derives 0 ts e) (h' : Derives 0 ts e')
    (hread : ∀ t ∈ ts, t.IsReadable) : e = e' := by
  let limits : Limits :=
    { nesting := max e.nest e'.nest, constants := max e.pooled.length e'.pooled.length }
  have hwithin : e.Within limits := ⟨Nat.le_max_left _ _, Nat.le_max_left _ _⟩
  have hwithin' : e'.Within limits := ⟨Nat.le_max_right _ _, Nat.le_max_right _ _⟩
  obtain ⟨last, hfeed, hfinish⟩ := (feed_finish_iff hread 0).2 ⟨h, hwithin⟩
  obtain ⟨last', hfeed', hfinish'⟩ := (feed_finish_iff hread 0).2 ⟨h', hwithin'⟩
  rw [hfeed] at hfeed'
  cases hfeed'
  rw [hfinish] at hfinish'
  cases hfinish'
  rfl

end ExprMachine
