import Mathlib.Logic.Function.Iterate
import ExprMachine.Expr.Code

/-!
# Recursive descent

An expression can be compiled by functions that call each other, with no tree: one reads an operand
and then all operators that bind tightly enough, each of which calls it again for what stands to its
right. Here the calls that have not returned are part of a state, and a step leads from one point of
a function to the next.

* `Precedence` — how tightly operators bind;
* `Mark` — the token that is looked at, or the end of the text;
* `Call`, `Point` — a function that waits for one that it has called, and what is done next;
* `Breach` — an operation outside its domain;
* `Descent`, `Descent.step` — the states and their steps;
* `Descent.result?` — the outcome, once the first call has returned.
-/

namespace ExprMachine

/-! ### Precedences -/

/-- How tightly operators bind, the weakest first. -/
inductive Precedence where
  | nothing
  | assignment
  | equality
  | comparison
  | term
  | factor
  | unary
  | primary
  deriving DecidableEq, Repr

namespace Precedence

/-- The place in the order. -/
def strength : Precedence → Nat
  | nothing => 0
  | assignment => 1
  | equality => 2
  | comparison => 3
  | term => 4
  | factor => 5
  | unary => 6
  | primary => 7

/-- The next tighter one, if there is one. -/
def next : Precedence → Precedence
  | nothing => assignment
  | assignment => equality
  | equality => comparison
  | comparison => term
  | term => factor
  | factor => unary
  | unary | primary => primary

/-- That of a token between operands. -/
def ofOperator : Option TokenKind → Precedence
  | some .bangEqual | some .equalEqual => equality
  | some .greater | some .greaterEqual | some .less | some .lessEqual => comparison
  | some .minus | some .plus => term
  | some .slash | some .star => factor
  | _ => nothing

end Precedence

/-- The instructions for a token between operands. -/
def operatorCode? : Option TokenKind → Option (List OpCode)
  | some .bangEqual => some [.equal, .not]
  | some .equalEqual => some [.equal]
  | some .greater => some [.greater]
  | some .greaterEqual => some [.less, .not]
  | some .less => some [.less]
  | some .lessEqual => some [.greater, .not]
  | some .plus => some [.add]
  | some .minus => some [.subtract]
  | some .star => some [.multiply]
  | some .slash => some [.divide]
  | _ => none

/-! ### Marks -/

/-- The token that is looked at; it has no kind at the end of the text. -/
structure Mark where
  kind? : Option TokenKind
  text : List Char
  line : Nat
  deriving DecidableEq, Repr

namespace Mark

/-- A token. -/
def ofToken (t : Token) : Mark := ⟨some t.kind, t.text, t.line⟩

/-- The end of the text. -/
def endOfText (line : Nat) : Mark := ⟨none, [], line⟩

/-- A complaint about what is looked at. -/
def diagnostic (mark : Mark) (c : Complaint) : Diagnostic :=
  match mark.kind? with
  | some kind => c.atToken ⟨kind, mark.text, mark.line⟩
  | none => c.atEnd mark.line

end Mark

/-! ### States -/

/-- A function that waits for the one that it has called. -/
inductive Call where
  /-- That of the whole text, which has called for an expression. -/
  | text
  /-- That of an operand and the operators behind it that bind at least as tightly as `floor`, past
  the check of the depth. -/
  | operand (floor : Precedence)
  | group
  | unary (kind? : Option TokenKind)
  | binary (kind? : Option TokenKind)
  deriving DecidableEq, Repr

/-- Whether a call is one of those that are counted. -/
def Call.isOperand : Call → Bool
  | operand _ => true
  | _ => false

/-- An operation outside its domain. -/
inductive Breach where
  /-- An operator between operands that has no instructions. -/
  | noInstructions
  /-- A string too short to leave its first and its last byte out. -/
  | shortString
  /-- A return from more calls than have been counted. -/
  | negativeDepth
  deriving DecidableEq, Repr

/-- What is done next. -/
inductive Point where
  /-- The function of the whole text begins. -/
  | begin
  /-- The function of an operand and the operators behind it has been called. -/
  | operand (floor : Precedence)
  /-- The token that has been read begins an operand. -/
  | opening
  /-- The token that has been read is handed to the function of numbers. -/
  | number
  /-- The token that has been read is handed to the function of strings. -/
  | string
  /-- The token that has been read is handed to the function of operators between operands. -/
  | binary
  /-- What has been called last has returned. -/
  | returned
  /-- What has been called last has failed. -/
  | failed (d : Diagnostic)
  | broken (b : Breach)
  deriving DecidableEq, Repr

/-- A point of the descent: the text that is left, the token that is looked at and the one before
it, the code so far, the counter of the depth, and the calls that have not returned, the innermost
first. -/
structure Descent where
  cursor : Cursor
  current : Mark
  previous : Mark
  chunk : Chunk
  depth : Nat
  calls : List Call
  point : Point

namespace Descent

/-! ### Steps -/

/-- Before the first step. -/
def start (id : HeapId) (source : String) : Descent where
  cursor := .start source.toList
  current := .endOfText 1
  previous := .endOfText 1
  chunk := .empty id
  depth := 0
  calls := []
  point := .begin

/-- Look at the next token, and go on. -/
def advance (s : Descent) (proceed : Descent → Descent) : Descent :=
  match s.cursor.next with
  | (.token t, cursor) => proceed { s with cursor, current := .ofToken t, previous := s.current }
  | (.endOfText line, cursor) =>
    proceed { s with cursor, current := .endOfText line, previous := s.current }
  | (.error e line, cursor) =>
    { s with cursor, previous := s.current, point := .failed (e.diagnostic line) }

/-- Complain about what is looked at, or was before. -/
def complain (s : Descent) (mark : Mark) (c : Complaint) : Descent :=
  { s with point := .failed (mark.diagnostic c) }

/-- Add an instruction. -/
def emit (s : Descent) (op : OpCode) : Descent :=
  { s with chunk := s.chunk.writeOp op s.previous.line }

/-- Add a constant, and the instruction that pushes it if one byte can hold the index. -/
def emitConstant (s : Descent) (v : Value) : Descent :=
  if constantLimit ≤ s.chunk.constants.size then
    { s with chunk := s.chunk.addConstant v }.complain s.previous .tooManyConstants
  else { s with chunk := s.chunk.writeConstant v s.previous.line, point := .returned }

/-- Call the function of an operand and the operators behind it. -/
def call (s : Descent) (caller : Call) (floor : Precedence) : Descent :=
  { s with calls := caller :: s.calls, point := .operand floor }

/-- Leave a call that is counted. -/
def leave (s : Descent) (outer : List Call) : Descent :=
  if s.depth = 0 then { s with point := .broken .negativeDepth }
  else { s with depth := s.depth - 1, calls := outer }

/-- The beginning of an operand. -/
def opening (s : Descent) : Descent :=
  match s.previous.kind? with
  | some .leftParen => s.call .group .assignment
  | some .minus | some .bang => s.call (.unary s.previous.kind?) .unary
  | some .number => { s with point := .number }
  | some .string => { s with point := .string }
  | some (.keyword .trueWord) => { s.emit .pushTrue with point := .returned }
  | some (.keyword .falseWord) => { s.emit .pushFalse with point := .returned }
  | some (.keyword .nilWord) => { s.emit .pushNil with point := .returned }
  | _ => s.complain s.previous .expectExpression

/-- A number. -/
def number (s : Descent) : Descent :=
  match Numeral.binary64? s.previous.text with
  | some x => s.emitConstant (.number x)
  | none => s.complain s.previous .invalidNumber

/-- A string without its first and its last byte. -/
def string (s : Descent) : Descent :=
  let bytes := Text.Utf8.encode s.previous.text
  if bytes.length < 2 then { s with point := .broken .shortString }
  else
    let (handle, chunk) := s.chunk.addString ((bytes.take (bytes.length - 1)).drop 1)
    { s with chunk }.emitConstant (.object handle)

/-- What a function does when the one that it has called has returned. -/
def resume (s : Descent) (outer : List Call) : Call → Descent
  | .text =>
    if s.current.kind? = none then
      s.advance fun s => { s.emit .halt with calls := outer, point := .returned }
    else s.complain s.current .expectEnd
  | .operand floor =>
    if floor.strength ≤ (Precedence.ofOperator s.current.kind?).strength then
      s.advance fun s => { s with point := .binary }
    else s.leave outer
  | .group =>
    if s.current.kind? = some .rightParen then
      s.advance fun s => { s with calls := outer, point := .returned }
    else s.complain s.current .expectClosingParen
  | .unary kind? =>
    { s.emit (if kind? = some .minus then .negate else .not) with calls := outer }
  | .binary kind? =>
    match operatorCode? kind? with
    | some codes => { codes.foldl emit s with calls := outer }
    | none => { s with point := .broken .noInstructions }

/-- What a function does when the one that it has called has failed. -/
def giveUp (s : Descent) (outer : List Call) : Call → Descent
  | .operand _ => s.leave outer
  | _ => { s with calls := outer }

/-- Do what is due. -/
def step (s : Descent) : Descent :=
  match s.point with
  | .begin => s.advance fun s => s.call .text .assignment
  | .operand floor =>
    s.advance fun s =>
      if s.depth = nestingLimit then s.complain s.previous .nestsTooDeeply
      else { s with depth := s.depth + 1, calls := .operand floor :: s.calls, point := .opening }
  | .opening => s.opening
  | .number => s.number
  | .string => s.string
  | .binary => s.call (.binary s.previous.kind?) (.next (.ofOperator s.previous.kind?))
  | .returned =>
    match s.calls with
    | call :: outer => s.resume outer call
    | [] => s
  | .failed _ =>
    match s.calls with
    | call :: outer => s.giveUp outer call
    | [] => s
  | .broken _ => s

/-- The state after some steps on a text. -/
def after (id : HeapId) (source : String) (n : Nat) : Descent := step^[n] (start id source)

/-- What has come out, if the first call has returned or failed. -/
def result? (s : Descent) : Option (Except Diagnostic Chunk) :=
  match s.calls, s.point with
  | [], .returned => some (.ok s.chunk)
  | [], .failed d => some (.error d)
  | _, _ => none

end Descent

end ExprMachine
