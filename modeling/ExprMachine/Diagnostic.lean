import ExprMachine.Token

/-!
# Diagnostics

What is reported when a text is not an expression.

* `Location` — where in the text: at a token, at the end, or before tokens were made of it;
* `Diagnostic` — a line, a location and a message, with `Diagnostic.render` its text;
* `Complaint` — the reasons that the parser has, each with its message;
* `LexicalError.diagnostic` — the report of a lexical error.
-/

namespace ExprMachine

/-- Where a diagnostic points. -/
inductive Location where
  | token (text : String)
  | endOfText
  | lexical
  deriving DecidableEq, Repr

/-- The location inside a rendered diagnostic. -/
def Location.render : Location → String
  | token text => s!" at '{text}'"
  | endOfText => " at end"
  | lexical => ""

/-- A report about a text. -/
structure Diagnostic where
  line : Nat
  location : Location
  message : String
  deriving DecidableEq, Repr

/-- A diagnostic as text. -/
def Diagnostic.render (d : Diagnostic) : String :=
  s!"[line {d.line}] Error" ++ d.location.render ++ ": " ++ d.message

/-- Diagnostics one below the other. -/
def Diagnostic.renderAll (ds : List Diagnostic) : String :=
  "\n".intercalate (ds.map render)

/-- Why a token cannot stand where it stands. -/
inductive Complaint where
  /-- The token begins no operand. -/
  | expectExpression
  /-- The token neither continues nor closes the innermost group. -/
  | expectClosingParen
  /-- The token does not continue a complete expression. -/
  | expectEnd
  /-- Too many operators and groups wait for the operand that the token begins. -/
  | nestsTooDeeply
  /-- The token is one literal more than a chunk can hold. -/
  | tooManyConstants
  /-- The token is a number that cannot be read. -/
  | invalidNumber
  deriving DecidableEq, Repr

namespace Complaint

/-- The wording of a complaint. -/
def message : Complaint → String
  | expectExpression => "Expect expression."
  | expectClosingParen => "Expect ')' after expression."
  | expectEnd => "Expect end of expression."
  | nestsTooDeeply => "Expression nests too deeply."
  | tooManyConstants => "Too many constants in one chunk."
  | invalidNumber => "Invalid number literal."

/-- A complaint about a token. -/
def atToken (c : Complaint) (t : Token) : Diagnostic :=
  ⟨t.line, .token (String.ofList t.text), c.message⟩

/-- A complaint about the end of the text, on its last line. -/
def atEnd (c : Complaint) (line : Nat) : Diagnostic := ⟨line, .endOfText, c.message⟩

end Complaint

/-- The report of a lexical error. -/
def LexicalError.diagnostic (e : LexicalError) (line : Nat) : Diagnostic :=
  ⟨line, .lexical, e.message⟩

end ExprMachine
