import MessageIdl.Files.Path

/-!
# File trees

Directories and files under one root, and what the operations on paths do to them.

* `Tree.read`, `Tree.write`: the content of a file, and a new content for it.
* `Tree.makeDirectories`: a directory with all directories above it.
* `Failure`: the reasons for which an operation fails.  Trees know the first five; a real file system
  has more.

What a tree leaves out:

* There are no links, so where a path leads is told by its names alone.
* There are no permissions, so every file that is there can be read and written.
* A write that opens its file stores all of its content, so no failure leaves a file empty or cut short.
* Names are texts of Unicode scalar values, as in paths, so all of them have a UTF-8 form.
-/

namespace MessageIdl.Files

/-- Why an operation on a path failed. -/
inductive Failure where
  | missing
  | alreadyThere
  | notADirectory
  | isADirectory
  | nameTooLong
  | other (number : Nat) (reason : String)
deriving DecidableEq

namespace Failure

/-- The wording of a failure. -/
def reason : Failure → String
  | .missing => "No such file or directory"
  | .alreadyThere => "File exists"
  | .notADirectory => "Not a directory"
  | .isADirectory => "Is a directory"
  | .nameTooLong => "File name too long"
  | .other _ reason => reason

/-- The number of a failure. -/
def number : Failure → Nat
  | .missing => 2
  | .alreadyThere => 17
  | .notADirectory => 20
  | .isADirectory => 21
  | .nameTooLong => 36
  | .other number _ => number

end Failure

/-- What stands at a place of a tree. -/
inductive Entry where
  | directory
  | file (content : List UInt8)
deriving DecidableEq

/-- The entries below the root, each with the names that lead to it. -/
structure Tree where
  entries : List (List String × Entry) := []

/-- The longest name, in bytes. -/
def maxNameSize : Nat := 255

/-- The longest text of a path, in bytes. -/
def maxPathSize : Nat := 4095

/-- Puts an entry at a place, in the stead of what is there. -/
def setEntry (place : List String) (e : Entry) :
    List (List String × Entry) → List (List String × Entry)
  | [] => [(place, e)]
  | (p, old) :: rest => if p = place then (p, e) :: rest else (p, old) :: setEntry place e rest

namespace Tree

/-- What stands at a place; the root is a directory. -/
def entry? (t : Tree) (place : List String) : Option Entry :=
  if place.isEmpty then some .directory
  else (t.entries.find? (·.1 == place)).map (·.2)

/-- A tree with another entry at a place. -/
def set (t : Tree) (place : List String) (e : Entry) : Tree :=
  { entries := setEntry place e t.entries }

/-- The place that names lead to.  Every name but the first is looked up in the place that the names
before it lead to, which has to be a directory. -/
def walk (t : Tree) (place : List String) : List String → Except Failure (List String)
  | [] => .ok place
  | name :: rest =>
      match t.entry? place with
      | none => .error .missing
      | some (.file _) => .error .notADirectory
      | some .directory =>
          if name = ".." then walk t place.dropLast rest
          else if maxNameSize < name.utf8ByteSize then .error .nameTooLong
          else walk t (place ++ [name]) rest

/-- The place of a path that is used in the directory `here`. -/
def locate (t : Tree) (here : List String) (p : Path) : Except Failure (List String) :=
  if maxPathSize < p.display.utf8ByteSize then .error .nameTooLong
  else t.walk (if p.anchor.isEmpty then here else []) p.parts

/-- The content of a file. -/
def read (t : Tree) (here : List String) (p : Path) : Except Failure (List UInt8) := do
  match t.entry? (← t.locate here p) with
  | none => .error .missing
  | some .directory => .error .isADirectory
  | some (.file content) => .ok content

/-- The tree in which a file has a new content; the file need not be there, but its directory.  Opening it
is all that can fail: what is to be stored is stored in full. -/
def write (t : Tree) (here : List String) (p : Path) (content : List UInt8) :
    Except Failure Tree := do
  let place ← t.locate here p
  match t.entry? place with
  | some .directory => .error .isADirectory
  | _ => .ok (t.set place (.file content))

/-- The tree with one more directory, in a directory that is there. -/
def makeDirectory (t : Tree) (place : List String) : Except Failure Tree := do
  let place ← t.locate [] (.absolute place)
  match t.entry? place with
  | some _ => .error .alreadyThere
  | none => .ok (t.set place .directory)

/-- Makes a directory whose names are given in reverse, and before it those above it that are
missing.  A directory that is there already is no failure.  A failure comes with its path. -/
def makeDirectoriesUp (t : Tree) : List String → Tree × Option (Failure × Path)
  | [] => (t, none)
  | name :: above =>
      let place := (name :: above).reverse
      let settle (t : Tree) (f : Failure) : Tree × Option (Failure × Path) :=
        if t.entry? place = some .directory then (t, none) else (t, some (f, .absolute place))
      match t.makeDirectory place with
      | .ok t' => (t', none)
      | .error .missing =>
          match makeDirectoriesUp t above with
          | (t', none) =>
              match t'.makeDirectory place with
              | .ok t'' => (t'', none)
              | .error f => settle t' f
          | failed => failed
      | .error f => settle t f

/-- Makes a directory at an absolute path. -/
def makeDirectories (t : Tree) (p : Path) : Tree × Option (Failure × Path) :=
  t.makeDirectoriesUp p.parts.reverse

end Tree

end MessageIdl.Files
