import ExprMachine.Text.Lines
import ExprMachine.Text.Utf8

/-!
# Trees of files

The files that a command can read and write, and what reading one can lead to.

* `FileError` — why a file is not a text, in words and in the form that a log shows;
* `FileTree` — files and folders by their places;
* `FileTree.read` — the content of the file that a path names;
* `FileTree.write` — the tree with one more file.
-/

namespace ExprMachine

/-- Why a file is not a text. -/
inductive FileError where
  | missing
  | notFolder
  | isFolder
  | nameTooLong
  | denied
  | notText
  /-- Anything else, in the words of the system. -/
  | unknown (text : String)
  deriving DecidableEq, Repr

namespace FileError

/-- The number, the kind and the text that the system has for an error. -/
def system? : FileError → Option (Nat × String × String)
  | missing => some (2, "NotFound", "No such file or directory")
  | notFolder => some (20, "NotADirectory", "Not a directory")
  | isFolder => some (21, "IsADirectory", "Is a directory")
  | nameTooLong => some (36, "InvalidFilename", "File name too long")
  | denied => some (13, "PermissionDenied", "Permission denied")
  | notText | unknown _ => none

/-- What a text is not when it cannot be decoded. -/
def notTextMessage : String := "stream did not contain valid UTF-8"

/-- The wording of an error. -/
def message (e : FileError) : String :=
  match e, e.system? with
  | _, some (code, _, text) => s!"{text} (os error {code})"
  | unknown text, none => text
  | _, none => notTextMessage

/-- An error with all its parts. -/
def detail (e : FileError) : String :=
  match e.system? with
  | some (code, kind, text) =>
    s!"Os \x7b code: {code}, kind: {kind}, message: \"{text}\" \x7d"
  | none => s!"Error \x7b kind: InvalidData, message: \"{e.message}\" \x7d"

end FileError

/-- Files and folders by their places: the names that lead there from the root. A folder need not be
listed if there is anything in it. Relative paths begin at the place `here`. -/
structure FileTree where
  files : List (List String × List UInt8) := []
  folders : List (List String) := []
  here : List String := []
  deriving DecidableEq, Repr

namespace FileTree

/-! ### Places -/

/-- Whether a place is that of a folder: one listed, or one with a file or a folder somewhere in it.
-/
def hasFolder (tree : FileTree) (place : List String) : Bool :=
  tree.folders.any place.isPrefixOf ||
    tree.files.any fun file => place.isPrefixOf file.1 && place ≠ file.1

/-- The content of the file at a place. -/
def contentAt? (tree : FileTree) (place : List String) : Option (List UInt8) :=
  tree.files.lookup place

/-- Put a file at a place, instead of the one that is there. -/
def put (tree : FileTree) (place : List String) (bytes : List UInt8) : FileTree :=
  { tree with files := (place, bytes) :: tree.files.filter fun file => file.1 ≠ place }

@[simp]
theorem contentAt?_put (tree : FileTree) (place : List String) (bytes : List UInt8) :
    (tree.put place bytes).contentAt? place = some bytes := by
  simp [put, contentAt?]

/-! ### Paths -/

/-- The names in a path. -/
def names (path : String) : List String := (Text.pieces '/' path.toList).map String.ofList

/-- The place where a path begins. -/
def start (tree : FileTree) (path : String) : List String :=
  if path.startsWith "/" then [] else tree.here

/-- The greatest length of a name, and of a path, in bytes. -/
def nameLimit : Nat := 255

@[inherit_doc nameLimit]
def pathLimit : Nat := 4095

/-! ### Reading -/

/-- The content of the file that names lead to from a place. The folder around the root is the root.
-/
def find (tree : FileTree) (place : List String) : List String → Except FileError (List UInt8)
  | [] => .error .isFolder
  | name :: rest =>
    if name = "" ∨ name = "." then tree.find place rest
    else if name = ".." then tree.find place.dropLast rest
    else if nameLimit < name.utf8ByteSize then .error .nameTooLong
    else
      let next := place ++ [name]
      match tree.contentAt? next with
      | some bytes => if rest = [] then .ok bytes else .error .notFolder
      | none => if tree.hasFolder next then tree.find next rest else .error .missing

/-- The content of the file that a path names. -/
def read (tree : FileTree) (path : String) : Except FileError (List UInt8) :=
  if pathLimit < path.utf8ByteSize then .error .nameTooLong
  else tree.find (tree.start path) (names path)

/-! ### Writing -/

/-- The place that names lead to from a place when missing folders are made, unless a file is in the
way. -/
def placeFor (tree : FileTree) (place : List String) : List String → Option (List String)
  | [] => some place
  | name :: rest =>
    if name = "" ∨ name = "." then tree.placeFor place rest
    else if name = ".." then tree.placeFor place.dropLast rest
    else if nameLimit < name.utf8ByteSize ∨ (tree.contentAt? (place ++ [name])).isSome then none
    else tree.placeFor (place ++ [name]) rest

/-- Write a file in a folder, which is made if it is missing. Where that cannot be done, nothing is
written. -/
def write (tree : FileTree) (folder name : String) (bytes : List UInt8) : FileTree :=
  if pathLimit < folder.utf8ByteSize + 1 + name.utf8ByteSize then tree
  else match tree.placeFor (tree.start folder) (names folder) with
    | some place =>
      let place := place ++ [name]
      if tree.hasFolder place then tree else tree.put place bytes
    | none => tree

end FileTree

/-- A file's content as a text. -/
def FileError.asText (content : Except FileError (List UInt8)) : Except FileError String :=
  match content with
  | .error e => .error e
  | .ok bytes =>
    match Text.Utf8.decode? bytes with
    | some chars => .ok (String.ofList chars)
    | none => .error .notText

end ExprMachine
