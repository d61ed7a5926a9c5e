import ExprMachine.Journal
import ExprMachine.Text.Blank
import ExprMachine.Text.ControlSequence
import ExprMachine.Text.Lines

/-!
# Logs

A log shows the events of a journal as lines, as far as a filter lets them through.

* `Log.Record` — a line of the log before it is laid out;
* `Log.records` — the records of a journal's entry;
* `Log.Filter.parse` — a filter from its description, with the parts that could not be read;
* `Log.Filter.admits` — whether a record passes;
* `Log.Record.render` — what is shown of a record.
-/

namespace ExprMachine.Log

/-- A line of a log: how important it is, which part of the program it is from, and its text. -/
structure Record where
  level : Level
  target : String
  text : String
  deriving DecidableEq, Repr

/-! ### Records of a journal -/

/-- The target that stands for a part of the program. -/
def partTarget : Part → String
  | .machine => "clove_vm::vm"
  | .compiler => "clove_compiler::compiler"
  | .commandLine => "clove_cli"
  | .session => "clove_cli::repl"

/-- The target of the marks at which an activity begins and ends. -/
def activityTarget : String := "tracing::span::active"

/-- The target of the mark at which an activity is done with. -/
def lifetimeTarget : String := "tracing::span"

/-- The text of an event: what it says and its details. -/
def eventText (e : Event) : String :=
  e.message ++ String.join (e.fields.map fun (name, value) => " " ++ name ++ "=" ++ value)

/-- The records of an entry. -/
def records : Entry → List Record
  | .event e => [⟨e.level, partTarget e.part, eventText e⟩]
  | .remark level part text => [⟨level, partTarget part, text⟩]
  | .compileEntered bytes =>
    [⟨.debug, partTarget .compiler, s!"compile; len={bytes}"⟩,
      ⟨.trace, activityTarget, "-> compile;"⟩]
  | .compileLeft =>
    [⟨.trace, activityTarget, "<- compile;"⟩, ⟨.trace, lifetimeTarget, "-- compile;"⟩]
  | _ => []

/-! ### Filters -/

/-- The rank of the least important level that passes, for the targets that begin with a text. -/
structure Directive where
  target : Option String
  rank : Nat
  deriving DecidableEq, Repr

/-- Directives in the order in which they were first given, and a text that records must contain. -/
structure Filter where
  directives : List Directive := []
  needle : Option String := none
  deriving DecidableEq, Repr

namespace Filter

/-- The rank that a word asks for, in any case of letters. -/
def rank? (word : String) : Option Nat :=
  let upper := String.ofList (word.toList.map Char.toUpper)
  if upper = "OFF" then some 0
  else (Level.all.find? fun level => level.name = upper).map Level.rank

/-- The rank at which everything passes. -/
def allRank : Nat := Level.trace.rank

/-- The parts of a text between separators. -/
def split (separator : Char) (s : String) : List String :=
  (Text.pieces separator s.toList).map String.ofList

/-- A text without the blanks around it. -/
def trimmed (s : String) : String := String.ofList (Text.trim s.toList)

/-- A directive: a level, a target, or both with an equals sign between them. What cannot be read is
given back. -/
def directive (s : String) : Except String Directive :=
  match split '=' s with
  | [only] =>
    match rank? only with
    | some rank => .ok ⟨none, rank⟩
    | none => .ok ⟨some only, allRank⟩
  | [target, level] =>
    let level := trimmed level
    if level = "" then .ok ⟨some target, allRank⟩
    else match rank? level with
      | some rank => .ok ⟨some target, rank⟩
      | none => .error level
  | _ => .error s

/-- Add a directive. It takes the place of one for the same target. -/
def insert (directives : List Directive) (d : Directive) : List Directive :=
  if directives.any (·.target = d.target) then
    directives.map fun other => if other.target = d.target then d else other
  else directives ++ [d]

/-- A complaint about a part of a description. -/
def warning (part : String) (remark : String) : String :=
  "warning: invalid logging spec '" ++ part ++ "'" ++ remark ++ ", ignoring it"

/-- The filter that a text describes: directives between commas, and after a slash the text that
records must contain. Parts that cannot be read are left out, each with a warning. -/
def parse (description : String) : Filter × List String :=
  let parts := split '/' description
  if 2 < parts.length then ({}, [warning description " (too many '/'s)"])
  else
    let words := ((split ',' (parts.headD "")).map trimmed).filter (· ≠ "")
    let read := words.map directive
    let directives := read.foldl (fun directives d => match d with
      | .ok d => insert directives d
      | .error _ => directives) []
    let warnings := read.filterMap fun
      | .ok _ => none
      | .error part => some (warning part "")
    ({ directives, needle := parts[1]? }, warnings)

/-- The directive for a target: of those whose text the target begins with, one with the longest
text, and of several the last. -/
def directiveFor? (filter : Filter) (target : String) : Option Directive :=
  let directives := if filter.directives = [] then [⟨none, Level.error.rank⟩]
    else filter.directives
  let length (d : Directive) := (d.target.map String.utf8ByteSize).getD 0
  directives.foldl (fun best d =>
    if !target.startsWith (d.target.getD "") then best
    else match best with
      | none => some d
      | some b => if length b ≤ length d then some d else best) none

/-- Whether a text contains another. -/
def contains (text needle : List Char) : Bool :=
  needle.isPrefixOf text || match text with
    | [] => false
    | _ :: rest => contains rest needle

/-- Whether a record passes. -/
def admits (filter : Filter) (record : Record) : Bool :=
  (match filter.directiveFor? record.target with
    | some d => record.level.rank ≤ d.rank
    | none => false) &&
  match filter.needle with
    | some needle => contains record.text.toList needle.toList
    | none => true

end Filter

/-! ### Layout -/

/-- The control sequence that begins a style of text. -/
def style (codes : List Nat) : String :=
  String.join (codes.map fun code => s!"\x1b[{code}m")

/-- The control sequence that ends every style. -/
def plain : String := "\x1b[0m"

/-- The style of a level. -/
def levelStyle : Level → List Nat
  | .error => [1, 31]
  | .warn => [33]
  | .info => [32]
  | .debug => [34]
  | .trace => [36]

/-- A text in a style, if styles are wanted. -/
def styled (colored : Bool) (codes : List Nat) (s : String) : String :=
  if colored then style codes ++ s ++ plain else s

/-- The name of a level in a column of five characters. -/
def levelColumn (level : Level) : String :=
  level.name ++ String.ofList (List.replicate (5 - level.name.length) ' ')

/-- A text whose lines after the first are set in. -/
def indented (s : String) : String :=
  String.ofList (s.toList.flatMap fun c => if c = '\n' then "\n    ".toList else [c])

/-- A record as a line of text. -/
def Record.line (colored : Bool) (r : Record) : String :=
  styled colored [90] "[" ++ styled colored (levelStyle r.level) (levelColumn r.level) ++ " " ++
    r.target ++ styled colored [90] "]" ++ " " ++ indented r.text ++ "\n"

/-- What is shown of a record. Where no styles are wanted, the record's text gives no orders to the
terminal either. -/
def Record.render (colored : Bool) (r : Record) : String :=
  if colored then r.line true
  else String.ofList (Text.withoutControls (r.line false).toList)

end ExprMachine.Log
