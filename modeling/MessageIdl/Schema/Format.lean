import MessageIdl.Schema.Basic

/-!
# Canonical text of schemas

Numbers are not part of the tree, so fields are numbered from 1 and values from 0 in their order.
Enumerations come before messages, with an empty line between two declarations.

* `SchemaFile.format`: the text of a file.
* `spaced`, `joinLines`: blocks of lines with an empty line after each, and lines as one text.
-/

namespace MessageIdl.Schema

/-- A line moved to the right by `n` blanks. -/
def indent (n : Nat) (line : String) : String := String.ofList (List.replicate n ' ') ++ line

/-- The line that opens a body. -/
def opening (keyword name : String) : String := keyword ++ " " ++ name ++ " \x7b"

/-- The line of a value and its number. -/
def EnumValue.line (number : Nat) (v : EnumValue) : String :=
  v.name ++ " = " ++ toString number ++ ";"

/-- The lines of an enumeration at an indentation. -/
def Enumeration.lines (depth : Nat) (e : Enumeration) : List String :=
  indent depth (opening "enum" e.name)
    :: e.values.mapIdx (fun i v => indent (depth + 2) (v.line i)) ++ [indent depth "\x7d"]

/-- The line of a field and its number. -/
def Field.line (number : Nat) (f : Field) : String :=
  (if f.repeated then "repeated " else "") ++ f.type ++ " " ++ f.name ++ " = " ++ toString number
    ++ ";"

/-- The lines of a message; one without members takes a single line. -/
def Message.lines (m : Message) : List String :=
  if m.fields.isEmpty ∧ m.enums.isEmpty then [opening "message" m.name ++ "\x7d"]
  else
    opening "message" m.name :: m.fields.mapIdx (fun i f => indent 2 (f.line (i + 1)))
      ++ m.enums.flatMap (Enumeration.lines 2) ++ ["\x7d"]

/-- Lines without the empty ones at the end, each ended by a line feed. -/
def joinLines (lines : List String) : String :=
  let kept := (lines.reverse.dropWhile (·.isEmpty)).reverse
  if kept.isEmpty then "" else "\n".intercalate kept ++ "\n"

/-- Blocks of lines, with an empty line after each. -/
def spaced (blocks : List (List String)) : List String := blocks.flatMap (· ++ [""])

/-- The canonical text of a file. -/
def SchemaFile.format (f : SchemaFile) : String :=
  joinLines (spaced (f.enums.map (Enumeration.lines 0) ++ f.messages.map Message.lines))

end MessageIdl.Schema
