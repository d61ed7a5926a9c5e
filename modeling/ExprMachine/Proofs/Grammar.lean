import ExprMachine.Expr.Parser

/-!
# The grammar of expressions

Which token sequences are expressions, and which trees they are, without a parser. The grammar has
seven levels:

* 0 — expression: what stands at level 1
* 1 — equality: `comparison ((!= | ==) comparison)*`
* 2 — comparison: `term ((> | >= | < | <=) term)*`
* 3 — term: `factor ((- | +) factor)*`
* 4 — factor: `unary ((/ | *) unary)*`
* 5 — unary: `(! | -) unary | primary`
* 6 — primary: number, string, true, false, nil or `( expression )`

Main definitions and statements:

* `UnaryOp.WrittenBy`, `BinaryOp.StandsAt` — the operators, their tokens and their levels;
* `Derives` — the grammar, with the tree that groups to the left;
* `Expr.pooled`, `Expr.nest`, `Expr.need` — the constants of a tree, how deep it nests and how many
  values it has on the stack at once;
* `Expr.Within` — a tree keeps to the limits;
* `Derives.pooled_eq` — the constants of a tree are those of its tokens;
* `Expr.need_le_nest` — the stack never grows beyond the nesting.
-/

namespace ExprMachine

/-! ### Tokens as literals -/

/-- The literal that a token writes by its kind. A number token can always be read. -/
def Token.literal? (t : Token) : Option Literal :=
  match t.kind with
  | .number => some (.number ((Numeral.binary64? t.text).getD .nan))
  | .string => some (.string (stringContent t.text))
  | .keyword .trueWord => some (.bool true)
  | .keyword .falseWord => some (.bool false)
  | .keyword .nilWord => some .nil
  | _ => none

/-- Number and string tokens take a place among the constants. -/
def Token.isPooled (t : Token) : Bool := t.kind = .number || t.kind = .string

/-- The literal of a number or string token. -/
def Token.constant? (t : Token) : Option Literal := t.literal?.filter Literal.isPooled

theorem Token.isSome_constant? (t : Token) : t.constant?.isSome = t.isPooled := by
  unfold Token.constant? Token.literal? Token.isPooled
  split <;> simp_all [Option.filter, Literal.isPooled]

/-! ### Operators and their levels -/

/-- The tokens that write an operator before an operand. -/
inductive UnaryOp.WrittenBy : UnaryOp → TokenKind → Prop
  | not : WrittenBy .not .bang
  | negate : WrittenBy .negate .minus

/-- The tokens that write an operator between operands, and the level at which it stands. -/
inductive BinaryOp.StandsAt : BinaryOp → TokenKind → (level : Nat) → Prop
  | notEqual : StandsAt .notEqual .bangEqual 1
  | equal : StandsAt .equal .equalEqual 1
  | greater : StandsAt .greater .greater 2
  | greaterEqual : StandsAt .greaterEqual .greaterEqual 2
  | less : StandsAt .less .less 2
  | lessEqual : StandsAt .lessEqual .lessEqual 2
  | subtract : StandsAt .subtract .minus 3
  | add : StandsAt .add .plus 3
  | divide : StandsAt .divide .slash 4
  | multiply : StandsAt .multiply .star 4

theorem UnaryOp.writtenBy_iff {op : UnaryOp} {kind : TokenKind} :
    op.WrittenBy kind ↔ UnaryOp.ofToken? kind = some op := by
  constructor
  · rintro ⟨⟩ <;> rfl
  · intro h
    unfold UnaryOp.ofToken? at h
    split at h <;> cases h <;> constructor

/-- The level of an operator is its rank for the parser. -/
theorem BinaryOp.standsAt_iff {op : BinaryOp} {kind : TokenKind} {level : Nat} :
    op.StandsAt kind level ↔ BinaryOp.ofToken? kind = some op ∧ op.rank = level := by
  constructor
  · rintro ⟨⟩ <;> exact ⟨rfl, rfl⟩
  · rintro ⟨h, rfl⟩
    unfold BinaryOp.ofToken? at h
    split at h <;> cases h <;> constructor

/-! ### Derivations -/

/-- What the tokens of a level derive. -/
inductive Derives : (level : Nat) → List Token → Expr → Prop
  | literal {t : Token} {value : Literal} :
      t.literal? = some value → Derives 6 [t] (.literal value t.line)
  | group {opening closing : Token} {ts : List Token} {inner : Expr} :
      opening.kind = .leftParen → Derives 0 ts inner → closing.kind = .rightParen →
      Derives 6 (opening :: ts ++ [closing]) (.group inner closing.line)
  | unary {t : Token} {op : UnaryOp} {ts : List Token} {operand : Expr} :
      op.WrittenBy t.kind → Derives 5 ts operand →
      Derives 5 (t :: ts) (.unary op operand)
  | binary {t : Token} {op : BinaryOp} {level : Nat} {before after : List Token}
      {left right : Expr} :
      op.StandsAt t.kind level → Derives level before left → Derives (level + 1) after right →
      Derives level (before ++ t :: after) (.binary op left right)
  | lift {level : Nat} {ts : List Token} {e : Expr} :
      level < 6 → Derives (level + 1) ts e → Derives level ts e

/-- A tree of a level is one of every weaker level. -/
theorem Derives.weaken {level weaker : Nat} {ts : List Token} {e : Expr} (h : Derives level ts e)
    (hle : weaker ≤ level) (hlevel : level ≤ 6) : Derives weaker ts e := by
  induction hd : level - weaker generalizing weaker with
  | zero =>
    obtain rfl : weaker = level := by omega
    exact h
  | succ d ih => exact .lift (by omega) (ih (by omega) (by omega))

theorem BinaryOp.rank_le (op : BinaryOp) : op.rank ≤ 4 := by
  cases op <;> decide

/-! ### Sizes of trees -/

namespace Expr

/-- The literals of a tree that take a place among the constants, in the order of the text. -/
def pooled : Expr → List Literal
  | literal value _ => if value.isPooled then [value] else []
  | group inner _ => inner.pooled
  | unary _ operand => operand.pooled
  | binary _ left right => left.pooled ++ right.pooled

/-- How many operands are begun and not yet complete at the deepest place: groups, unary operators
and right operands count. -/
def nest : Expr → Nat
  | literal _ _ => 1
  | group inner _ => inner.nest + 1
  | unary _ operand => operand.nest + 1
  | binary _ left right => max left.nest (right.nest + 1)

/-- How many values are on the stack at once while the tree is evaluated. -/
def need : Expr → Nat
  | literal _ _ => 1
  | group inner _ => inner.need
  | unary _ operand => operand.need
  | binary _ left right => max left.need (right.need + 1)

/-- The stack never grows beyond the nesting. -/
theorem need_le_nest (e : Expr) : e.need ≤ e.nest := by
  induction e with
  | literal value line => exact Nat.le_refl 1
  | group inner line ih => exact Nat.le_succ_of_le ih
  | unary op operand ih => exact Nat.le_succ_of_le ih
  | binary op left right ihl ihr =>
    simp only [need, nest]
    omega

theorem need_pos (e : Expr) : 0 < e.need := by
  induction e with
  | literal value line => exact Nat.one_pos
  | group inner line ih => exact ih
  | unary op operand ih => exact ih
  | binary op left right ihl ihr => exact Nat.lt_of_lt_of_le ihl (Nat.le_max_left _ _)

/-- A tree keeps to the limits. -/
structure Within (limits : Limits) (e : Expr) : Prop where
  nest_le : e.nest ≤ limits.nesting
  length_pooled_le : e.pooled.length ≤ limits.constants

end Expr

/-! ### What derivations say about tokens -/

theorem Token.constant?_of_unary {t : Token} {op : UnaryOp} (h : op.WrittenBy t.kind) :
    t.constant? = none := by
  unfold Token.constant? Token.literal?
  cases hkind : t.kind <;> rw [hkind] at h <;> cases h <;> rfl

theorem Token.constant?_of_binary {t : Token} {op : BinaryOp} {level : Nat}
    (h : op.StandsAt t.kind level) : t.constant? = none := by
  unfold Token.constant? Token.literal?
  cases hkind : t.kind <;> rw [hkind] at h <;> cases h <;> rfl

/-- The constants of a tree are those of its tokens. -/
theorem Derives.pooled_eq {level : Nat} {ts : List Token} {e : Expr} (h : Derives level ts e) :
    e.pooled = ts.filterMap Token.constant? := by
  induction h with
  | @literal t value hvalue =>
    cases hpooled : value.isPooled <;>
      simp [Expr.pooled, Token.constant?, hvalue, hpooled, Option.filter]
  | @group opening closing ts inner hopen _ hclose ih =>
    have hopen' : opening.constant? = none := by simp [Token.constant?, Token.literal?, hopen]
    have hclose' : closing.constant? = none := by simp [Token.constant?, Token.literal?, hclose]
    simp [Expr.pooled, List.filterMap_append, hopen', hclose', ih]
  | unary hop _ ih =>
    rw [List.filterMap_cons_none (Token.constant?_of_unary hop)]
    exact ih
  | binary hop _ _ ihl ihr =>
    rw [List.filterMap_append, List.filterMap_cons_none (Token.constant?_of_binary hop), ← ihl,
      ← ihr]
    rfl
  | lift _ _ ih => exact ih

/-- A tree has as many constants as its tokens have numbers and strings. -/
theorem Derives.length_pooled {level : Nat} {ts : List Token} {e : Expr} (h : Derives level ts e) :
    e.pooled.length = ts.countP Token.isPooled := by
  rw [h.pooled_eq, List.length_filterMap_eq_countP]
  exact congrArg (List.countP · ts) (funext Token.isSome_constant?)

/-- The last token of a tree ends on the tree's last line. -/
theorem Derives.lastLine_eq {level : Nat} {ts : List Token} {e : Expr} (h : Derives level ts e) :
    ∃ t, ts.getLast? = some t ∧ t.line = e.lastLine := by
  induction h with
  | literal _ => exact ⟨_, rfl, rfl⟩
  | @group opening closing ts inner _ _ _ _ =>
    exact ⟨closing, List.getLast?_concat, rfl⟩
  | @unary t op ts operand _ _ ih =>
    obtain ⟨last, hlast, hline⟩ := ih
    exact ⟨last, by simp [List.getLast?_cons, hlast], hline⟩
  | @binary t op level before after left right _ _ _ _ ihr =>
    obtain ⟨last, hlast, hline⟩ := ihr
    exact ⟨last, by simp [List.getLast?_append, List.getLast?_cons, hlast], hline⟩
  | lift _ _ ih => exact ih

end ExprMachine
