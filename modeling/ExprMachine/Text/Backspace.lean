import ExprMachine.Text.Cluster
import ExprMachine.Text.Utf8

/-!
# Backspaces

A backspace in a line of input takes back the cluster before it.

* `Draft` — what is left of a line so far;
* `obeyBackspaces` — what is left of a line, which is the line where it has no backspace
  (`obeyBackspaces_eq_self`).
-/

namespace ExprMachine.Text

/-- The character that takes back what is before it. -/
def backspace : Char := '\x08'

/-- What is left of a line so far, latest character first, and the sizes in bytes of the clusters
that may still be taken back, latest first. A size is kept in a byte, so that of a cluster of 256
bytes or more only the remainder counts. -/
structure Draft where
  text : List Char := []
  sizes : List Nat := []
  deriving DecidableEq, Repr

/-- Take back the latest characters until a number of bytes is gone. -/
def takeBack : Nat → List Char → List Char
  | _, [] => []
  | 0, text => text
  | size + 1, c :: text => takeBack (size + 1 - c.utf8Size) text

/-- Add a cluster, or obey it. -/
def Draft.add (d : Draft) (cluster : List Char) : Draft :=
  if cluster = [backspace] then
    match d.sizes with
    | [] => d
    | size :: sizes => { text := takeBack size d.text, sizes }
  else { text := cluster.reverse ++ d.text, sizes := (Utf8.encode cluster).length % 256 :: d.sizes }

/-- What is left of a line whose backspaces are obeyed. -/
def obeyBackspaces (line : List Char) : List Char :=
  ((clusters line).foldl Draft.add {}).text.reverse

theorem Draft.text_foldl_add (d : Draft) (pieces : List (List Char))
    (h : ∀ piece ∈ pieces, backspace ∉ piece) :
    (pieces.foldl add d).text = pieces.flatten.reverse ++ d.text := by
  induction pieces generalizing d with
  | nil => rfl
  | cons piece pieces ih =>
    simp only [List.mem_cons, forall_eq_or_imp] at h
    have hne : piece ≠ [backspace] := fun heq => h.1 (by simp [heq])
    simp [ih _ h.2, add, hne]

/-- A line without backspaces stays as it is. -/
theorem obeyBackspaces_eq_self (line : List Char) (h : backspace ∉ line) :
    obeyBackspaces line = line := by
  have hpieces : ∀ piece ∈ clusters line, backspace ∉ piece := fun piece hpiece hmem =>
    h (by rw [← flatten_clusters line]; exact List.mem_flatten.2 ⟨piece, hpiece, hmem⟩)
  simp [obeyBackspaces, Draft.text_foldl_add _ _ hpieces, flatten_clusters]

end ExprMachine.Text
