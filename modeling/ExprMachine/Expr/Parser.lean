import ExprMachine.Diagnostic
import ExprMachine.Expr
import ExprMachine.Lexer
import ExprMachine.Number.Numeral
import ExprMachine.Text.Utf8

/-!
# The parser

A parser state holds the groups and operators that still wait for what follows them, innermost
first, and the operand in hand if there is one. Each token takes one step:

* `takeOperand` — a token where an operand must begin, within `Limits`;
* `unwind` — operators that bind at least as tightly as the next one get their operand;
* `takeOperator` — a token after a complete operand;
* `ParserState.finish` — the end of the text;
* `parseFrom`, `parse` — the steps of a whole text.

The first error ends the parse. A token refused where an operand must begin is reported only if
the text behind it, up to the next token, can be read: a lexical error there comes first.
-/

namespace ExprMachine

/-! ### States -/

/-- What waits for an operand, or for the end of one. -/
inductive Pending where
  | group
  | unary (op : UnaryOp)
  | binary (op : BinaryOp) (left : Expr)
  deriving DecidableEq, Repr

/-- How many operators and groups may wait at the beginning of an operand, that operand counted in.
-/
def nestingLimit : Nat := 256

/-- The number of constants that a chunk can hold. -/
def constantLimit : Nat := 256

/-- The bounds on an expression. -/
structure Limits where
  nesting : Nat
  constants : Nat
  deriving DecidableEq, Repr

/-- The bounds for texts. -/
def Limits.standard : Limits := { nesting := nestingLimit, constants := constantLimit }

/-- A state between tokens: what waits, innermost first, the number of pooled literals so far, and
the operand in hand. -/
inductive ParserState where
  | needsOperand (pending : List Pending) (constants : Nat)
  | hasOperand (pending : List Pending) (constants : Nat) (operand : Expr)
  deriving DecidableEq, Repr

/-- Before the first token. -/
def ParserState.start : ParserState := .needsOperand [] 0

/-! ### Steps -/

/-- The content of a string token: its text without the quotes. -/
def stringContent (text : List Char) : List UInt8 := Text.Utf8.encode (text.drop 1).dropLast

/-- The literal that a token writes, `none` if it writes none. -/
def literalOf? (t : Token) : Except Complaint (Option Literal) :=
  match t.kind with
  | .number =>
    match Numeral.binary64? t.text with
    | some x => .ok (some (.number x))
    | none => .error .invalidNumber
  | .string => .ok (some (.string (stringContent t.text)))
  | .keyword .trueWord => .ok (some (.bool true))
  | .keyword .falseWord => .ok (some (.bool false))
  | .keyword .nilWord => .ok (some .nil)
  | _ => .ok none

/-- A token where an operand must begin. -/
def takeOperand (limits : Limits) (pending : List Pending) (constants : Nat) (t : Token) :
    Except Complaint ParserState :=
  if limits.nesting ≤ pending.length then .error .nestsTooDeeply
  else if t.kind = .leftParen then .ok (.needsOperand (.group :: pending) constants)
  else match UnaryOp.ofToken? t.kind with
    | some op => .ok (.needsOperand (.unary op :: pending) constants)
    | none =>
      match literalOf? t with
      | .error c => .error c
      | .ok none => .error .expectExpression
      | .ok (some value) =>
        if !value.isPooled then .ok (.hasOperand pending constants (.literal value t.line))
        else if limits.constants ≤ constants then .error .tooManyConstants
        else .ok (.hasOperand pending (constants + 1) (.literal value t.line))

/-- Give the operand to the operators that wait for it and bind at least as tightly as `rank`, the
innermost first. A group stops this. -/
def unwind (rank : Nat) : List Pending → Expr → List Pending × Expr
  | .unary op :: outer, e => unwind rank outer (.unary op e)
  | .binary op left :: outer, e =>
    if rank ≤ op.rank then unwind rank outer (.binary op left e)
    else (.binary op left :: outer, e)
  | pending, e => (pending, e)

/-- A token after a complete operand. -/
def takeOperator (pending : List Pending) (constants : Nat) (operand : Expr) (t : Token) :
    Except Complaint ParserState :=
  match BinaryOp.ofToken? t.kind with
  | some op =>
    let (outer, left) := unwind op.rank pending operand
    .ok (.needsOperand (.binary op left :: outer) constants)
  | none =>
    match unwind 0 pending operand with
    | (.group :: outer, inner) =>
      if t.kind = .rightParen then .ok (.hasOperand outer constants (.group inner t.line))
      else .error .expectClosingParen
    | _ => .error .expectEnd

/-- The end of the text, on line `line`. -/
def ParserState.finish (limits : Limits) (line : Nat) : ParserState → Except Diagnostic Expr
  | .needsOperand pending _ =>
    if limits.nesting ≤ pending.length then .error (Complaint.nestsTooDeeply.atEnd line)
    else .error (Complaint.expectExpression.atEnd line)
  | .hasOperand pending _ operand =>
    match unwind 0 pending operand with
    | ([], e) => .ok e
    | _ => .error (Complaint.expectClosingParen.atEnd line)

/-! ### Texts -/

/-- What is reported when a token is refused as the beginning of an operand. -/
def refusal (c : Complaint) (t : Token) (rest : List Token) (ending : Cursor.Ending) :
    Diagnostic :=
  match rest, ending with
  | [], .error e line => e.diagnostic line
  | _, _ => c.atToken t

/-- The expression that tokens continue, with the last line of the text. -/
def parseFrom (limits : Limits) (state : ParserState) :
    List Token → Cursor.Ending → Except Diagnostic (Expr × Nat)
  | [], .error e line => .error (e.diagnostic line)
  | [], .endOfText line => (state.finish limits line).map fun e => (e, line)
  | t :: rest, ending =>
    match state with
    | .needsOperand pending constants =>
      match takeOperand limits pending constants t with
      | .ok next => parseFrom limits next rest ending
      | .error c => .error (refusal c t rest ending)
    | .hasOperand pending constants operand =>
      match takeOperator pending constants operand t with
      | .ok next => parseFrom limits next rest ending
      | .error c => .error (c.atToken t)

/-- The expression that a text is, with its last line. -/
def parse (source : List Char) : Except Diagnostic (Expr × Nat) :=
  let (tokens, ending) := (Cursor.start source).tokens
  parseFrom .standard .start tokens ending

/-! ### Unwinding -/

theorem unwind_length (rank : Nat) (pending : List Pending) (e : Expr) :
    (unwind rank pending e).1.length ≤ pending.length := by
  induction pending generalizing e with
  | nil => exact Nat.le_refl _
  | cons p outer ih =>
    cases p with
    | group => exact Nat.le_refl _
    | unary op => exact Nat.le_succ_of_le (ih _)
    | binary op left =>
      simp only [unwind]
      split
      · exact Nat.le_succ_of_le (ih _)
      · exact Nat.le_refl _

end ExprMachine
