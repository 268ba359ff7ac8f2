/-!
# Paths

A path is a row of names.  Names that are empty or `.` mean nothing and are dropped; `..` is kept,
because where it leads depends on the files there are.  Names are texts of Unicode scalar values, so a name
that a system spells with bytes outside of UTF-8 is none.

* `Path.ofText`, `Path.display`: reading and writing.
* `Path.resolve`: the absolute path without `..`, found without a look at the files.
-/

namespace MessageIdl.Files

/-- A path: what it is anchored at (`/` for the root, nothing for the current directory), and the
names to follow. -/
structure Path where
  anchor : String := ""
  parts : List String := []
deriving DecidableEq

/-- Why a path cannot be used at all. -/
inductive PathFault where
  | zeroCharacter
  | unknownHome
deriving DecidableEq

/-- The wording of a path fault. -/
def PathFault.message : PathFault → String
  | .zeroCharacter => "embedded null byte"
  | .unknownHome => "Could not determine home directory."

/-- The pieces of a text between slashes. -/
def segments : List Char → List (List Char)
  | [] => [[]]
  | c :: rest =>
      if c = '/' then [] :: segments rest
      else match segments rest with
        | [] => [[c]]
        | s :: more => (c :: s) :: more

namespace Path

/-- One slash in front anchors at the root, and so do three or more; two are an anchor of their
own. -/
def anchorOf (text : List Char) : String :=
  match text.takeWhile (· = '/') with
  | [] => ""
  | [_, _] => "//"
  | _ => "/"

/-- The path that a text stands for. -/
def ofText (text : String) : Path :=
  { anchor := anchorOf text.toList
    parts := ((segments text.toList).map String.ofList).filter fun s => s ≠ "" ∧ s ≠ "." }

/-- The text of a path; the current directory is a full stop. -/
def display (p : Path) : String :=
  if p.anchor.isEmpty && p.parts.isEmpty then "." else p.anchor ++ "/".intercalate p.parts

/-- A path from the root. -/
def absolute (parts : List String) : Path := { anchor := "/", parts }

/-- The path of a name in a directory. -/
def child (p : Path) (name : String) : Path := { p with parts := p.parts ++ [name] }

/-- Whether the zero character, which no file name can hold, is in a path. -/
def hasZero (p : Path) : Bool := p.parts.any (·.toList.contains '\x00')

/-- Follows names from a place, `..` leading one level up and the root being its own parent. -/
def followNames (start : List String) (names : List String) : List String :=
  names.foldl (fun place name => if name = ".." then place.dropLast else place ++ [name]) start

/-- A first name `~` stands for the home directory, and one that begins with `~` for the home of the
user whose name follows. -/
def expandHome (home : List String) (homeOf : String → Option (List String)) (p : Path) :
    Except PathFault Path :=
  match p.anchor, p.parts with
  | "", first :: rest =>
      match first.toList with
      | ['~'] => .ok (absolute (home ++ rest))
      | '~' :: user =>
          if user.contains '\x00' then .error .zeroCharacter
          else match homeOf (String.ofList user) with
            | some place => .ok (absolute (place ++ rest))
            | none => .error .unknownHome
      | _ => .ok p
  | _, _ => .ok p

/-- The absolute path without `..` of a path that is used in the directory `here`. -/
def resolve (here : List String) (p : Path) : Except PathFault Path :=
  if p.hasZero then .error .zeroCharacter
  else .ok (absolute (followNames (if p.anchor.isEmpty then here else []) p.parts))

end Path

end MessageIdl.Files
