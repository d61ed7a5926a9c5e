import ExprMachine.CommandLine.Arguments
import ExprMachine.CommandLine.Environment
import ExprMachine.Log

/-!
# The error stream

How a journal is shown to the user: reports and notices in full, the rest as far as the log's filter
lets it through.

* `Console` — the filter, whether the log is coloured, and the times to show;
* `Console.of` — the console that an invocation and an environment ask for;
* `Console.render` — a journal as text.
-/

namespace ExprMachine

/-- What is shown of a journal, and how. -/
structure Console where
  filter : Log.Filter := {}
  colored : Bool := false
  times : String := ""
  deriving DecidableEq, Repr

namespace Console

/-! ### Choices -/

/-- The filter that an invocation asks for by its verbosity. -/
def levelFor (i : Invocation) : String :=
  if i.quiet then "error"
  else match i.verbosity with
    | 0 => "warn"
    | 1 => "info"
    | 2 => "debug"
    | _ => "trace"

/-- The description of the filter: a variable goes before the verbosity, and tracing is added to
either. -/
def description (environment : Environment) (i : Invocation) : String :=
  (environment.lookup "RUST_LOG").getD (levelFor i) ++
    if i.command.traces then ",clove_vm=trace" else ""

/-- Whether the log is coloured though no terminal shows it. -/
def wantsColor (environment : Environment) (i : Invocation) : Bool :=
  match environment.lookup "RUST_LOG_STYLE" with
  | some "always" => true
  | some "never" => false
  | _ =>
    match i.color with
    | .always => true
    | .never => false
    | .auto => !environment.isSet "NO_COLOR" && environment.isSet "CLICOLOR_FORCE"

/-- The console for an invocation, and the warnings about its filter. -/
def of (environment : Environment) (i : Invocation) (times : String) : Console × List String :=
  let (filter, warnings) := Log.Filter.parse (description environment i)
  ({ filter, colored := wantsColor environment i, times }, warnings)

/-! ### Text -/

/-- A notice: its heading in bold and in a colour, whoever reads it. -/
def notice (urgent : Bool) (heading text : String) : String :=
  Log.style [1, if urgent then 31 else 34] ++ heading ++ Log.style [39, 0] ++ " " ++ text ++ "\n"

/-- What is shown of an entry. -/
def showEntry (c : Console) : Entry → String
  | .report text => text ++ "\n"
  | .notice urgent heading text => notice urgent heading text
  | .timed => notice false "TIME" c.times
  | entry => String.join (((Log.records entry).filter c.filter.admits).map
      (Log.Record.render c.colored))

/-- What is shown of a journal. -/
def render (c : Console) (journal : Journal) : String :=
  String.join (journal.toList.map c.showEntry)

end Console

end ExprMachine
