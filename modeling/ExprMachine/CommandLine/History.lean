import ExprMachine.CommandLine.Environment
import ExprMachine.Text.Blank
import ExprMachine.Text.Lines
import ExprMachine.Text.Utf8

/-!
# Line history

The lines of interactive sessions, as they are kept in a file from one session to the next.

* `History.add` — one more line: blank lines and repetitions of the last line are left out, and only
  the latest hundred lines are kept;
* `History.file?` — the content of the file, if there is anything new to keep;
* `History.ofFile` — the history that a file holds;
* `History.folder?` — the folder of the file.
-/

namespace ExprMachine

/-- Lines, latest first, and whether any of them is not in the file yet. -/
structure History where
  latest : List (List Char) := []
  changed : Bool := false
  deriving DecidableEq, Repr

namespace History

/-! ### Lines -/

/-- The number of lines that are kept. -/
def capacity : Nat := 100

/-- Put a line in front, unless it is empty or the last line once more. -/
def insert (h : History) (line : List Char) : History :=
  if line = [] ∨ h.latest.head? = some line then h
  else { latest := (line :: h.latest).take capacity, changed := true }

/-- Add a line of a session. -/
def add (h : History) (line : List Char) : History :=
  if Text.trim line = [] then h else h.insert line

theorem length_insert_le (h : History) (line : List Char) (hle : h.latest.length ≤ capacity) :
    (h.insert line).latest.length ≤ capacity := by
  unfold insert
  split
  · exact hle
  · exact List.length_take_le _ _

theorem length_add_le (h : History) (line : List Char) (hle : h.latest.length ≤ capacity) :
    (h.add line).latest.length ≤ capacity := by
  unfold add
  split
  · exact hle
  · exact h.length_insert_le line hle

/-! ### Files -/

/-- The name of the file. -/
def fileName : String := "history"

/-- The folder of the file. It is in the folder for data, if that is given by an absolute path, or
else in the usual place under the user's home. -/
def folder? (environment : Environment) : Option String :=
  let data := (environment.lookup "XDG_DATA_HOME").filter fun path => path.startsWith "/"
  let home := (environment.lookup "HOME").filter fun path => path ≠ ""
  (data <|> home.map (· ++ "/.local/share")).map (· ++ "/clove")

/-- The first line of a file. -/
def header : String := "#V2"

/-- A line in a file: a backslash is written twice, and a line feed as a backslash and a letter. -/
def escaped (line : List Char) : List Char :=
  line.flatMap fun c =>
    if c = '\\' then ['\\', '\\'] else if c = '\n' then ['\\', 'n'] else [c]

/-- The line that is written in a file, if every backslash has its partner. -/
def unescaped? : List Char → Option (List Char)
  | [] => some []
  | '\\' :: '\\' :: rest => (unescaped? rest).map ('\\' :: ·)
  | '\\' :: 'n' :: rest => (unescaped? rest).map ('\n' :: ·)
  | c :: rest => if c = '\\' then none else (unescaped? rest).map (c :: ·)

/-- Escaping a line loses nothing. -/
theorem unescaped?_escaped (line : List Char) : unescaped? (escaped line) = some line := by
  induction line with
  | nil => rfl
  | cons c line ih =>
    rw [escaped] at ih
    by_cases hb : c = '\\'
    · simp [escaped, unescaped?, hb, ih]
    · by_cases hn : c = '\n'
      · simp [escaped, unescaped?, hn, ih]
      · simp [escaped, unescaped?, hb, hn, ih]

/-- The content of the file, the oldest line first. -/
def file? (h : History) : Option String :=
  if h.changed then
    some (header ++ "\n" ++
      String.join (h.latest.reverse.map fun line => String.ofList (escaped line) ++ "\n"))
  else none

/-- Lines up to the first that is not a text. -/
def texts (bytes : List UInt8) : List (List Char) :=
  ((Text.lines 10 13 bytes).map Text.Utf8.decode?).takeWhile Option.isSome |>.filterMap id

/-- The history that a file holds. Lines are escaped if the header says so, and one that is not
escaped well is taken as it is. -/
def ofFile (bytes : List UInt8) : History :=
  let lines := match texts bytes with
    | first :: rest =>
      if String.ofList first = header then rest.map fun line => (unescaped? line).getD line
      else first :: rest
    | [] => []
  { lines.foldl insert {} with changed := false }

end History

end ExprMachine
