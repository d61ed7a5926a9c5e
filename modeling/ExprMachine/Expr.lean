import ExprMachine.Literal
import ExprMachine.Token

/-!
# Expressions

The trees of the expression language.

* `UnaryOp`, `BinaryOp` — the operators, and the tokens that write them;
* `BinaryOp.rank` — how tightly a binary operator binds;
* `Expr` — trees, with the lines that code and errors are attributed to;
* `Expr.lastLine` — the line on which the last token of a tree ends.
-/

namespace ExprMachine

/-- The operators before an operand. -/
inductive UnaryOp where
  | negate
  | not
  deriving DecidableEq, Repr

/-- The operator that a token writes before an operand. -/
def UnaryOp.ofToken? : TokenKind → Option UnaryOp
  | .minus => some .negate
  | .bang => some .not
  | _ => none

/-- The operators between operands. -/
inductive BinaryOp where
  | notEqual
  | equal
  | greater
  | greaterEqual
  | less
  | lessEqual
  | add
  | subtract
  | multiply
  | divide
  deriving DecidableEq, Repr

namespace BinaryOp

/-- The operator that a token writes between operands. -/
def ofToken? : TokenKind → Option BinaryOp
  | .bangEqual => some notEqual
  | .equalEqual => some equal
  | .greater => some greater
  | .greaterEqual => some greaterEqual
  | .less => some less
  | .lessEqual => some lessEqual
  | .plus => some add
  | .minus => some subtract
  | .star => some multiply
  | .slash => some divide
  | _ => none

/-- How tightly an operator binds: equality, comparison, sum, product. Operators of one rank group
to the left. -/
def rank : BinaryOp → Nat
  | notEqual | equal => 1
  | greater | greaterEqual | less | lessEqual => 2
  | add | subtract => 3
  | multiply | divide => 4

end BinaryOp

/-- A tree. A literal has the line of its token, a group that of its closing parenthesis. -/
inductive Expr where
  | literal (value : Literal) (line : Nat)
  | group (inner : Expr) (line : Nat)
  | unary (op : UnaryOp) (operand : Expr)
  | binary (op : BinaryOp) (left right : Expr)
  deriving DecidableEq, Repr

/-- The line on which the last token of a tree ends. -/
def Expr.lastLine : Expr → Nat
  | literal _ line => line
  | group _ line => line
  | unary _ operand => operand.lastLine
  | binary _ _ right => right.lastLine

end ExprMachine
