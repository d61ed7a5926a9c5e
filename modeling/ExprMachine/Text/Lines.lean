/-!
# Lines

The lines of a text, for any alphabet with a line feed and a carriage return, so that one
definition serves characters and bytes:

* `pieces` — what stands between line feeds, one piece more than there are line feeds;
* `lines` — the pieces as lines: a carriage return before a line feed belongs to the line
  end, and nothing after the last line feed is no line.
-/

namespace ExprMachine.Text

variable {α : Type} [DecidableEq α]

/-- What stands between the elements equal to `feed`. -/
def pieces (feed : α) (s : List α) : List (List α) :=
  s.foldr (fun a rest =>
    if a = feed then [] :: rest
    else match rest with
      | [] => [[a]]
      | piece :: others => (a :: piece) :: others) [[]]

@[simp]
theorem pieces_nil (feed : α) : pieces feed [] = [[]] := rfl

@[simp]
theorem pieces_feed (feed : α) (s : List α) : pieces feed (feed :: s) = [] :: pieces feed s := by
  simp [pieces]

theorem pieces_ne_nil (feed : α) (s : List α) : pieces feed s ≠ [] := by
  cases s with
  | nil => simp
  | cons a s =>
    simp only [pieces, List.foldr_cons]
    split
    · simp
    · split <;> simp

/-- A line without the carriage return that ends it, if one does. -/
def dropReturn (ret : α) (s : List α) : List α :=
  if s.getLast? = some ret then s.dropLast else s

/-- The lines of a text. A last piece that is empty is not a line, and one that no line feed
ends keeps its carriage return. -/
def lines (feed ret : α) (s : List α) : List (List α) :=
  let all := pieces feed s
  let last := all.getLastD []
  all.dropLast.map (dropReturn ret) ++ if last = [] then [] else [last]

theorem lines_nil (feed ret : α) : lines feed ret [] = [] := rfl

end ExprMachine.Text
