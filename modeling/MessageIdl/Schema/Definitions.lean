import MessageIdl.Schema.Format
import MessageIdl.Text.Quoted

/-!
# Type definitions

A schema as type definitions in one of two notations.  Built-in types follow the mapping of messages
to JSON, where 64-bit integers and bytes travel as strings; any other type is taken over by name.

* `Target`: the notations, `Target.named?` their names.
* `SchemaFile.definitions`: the text.
* `UnknownTarget`: the complaint about a name that no notation has.
-/

namespace MessageIdl.Schema

/-- The notations for type definitions. -/
inductive Target where
  | flow
  | typescript
deriving DecidableEq

namespace Target

/-- All notations. -/
def all : List Target := [.flow, .typescript]

/-- The name of a notation. -/
def name : Target → String
  | .flow => "flow"
  | .typescript => "typescript"

/-- The notation of a name. -/
def named? (s : String) : Option Target := all.find? (·.name == s)

/-- The lines with which a text in the notation begins. -/
def header : Target → List String
  | .flow => ["// @flow"]
  | .typescript => []

/-- The type of lists of a type. -/
def listOf : Target → String → String
  | .flow, t => "Array<" ++ t ++ ">"
  | .typescript, t => t ++ "[]"

end Target

/-- A name that no notation has, with the names there are. -/
structure UnknownTarget where
  name : String
  choices : List String := Target.all.map Target.name
deriving DecidableEq

/-- The wording of the complaint. -/
def UnknownTarget.message (e : UnknownTarget) : String :=
  "unknown target syntax " ++ Text.quoted e.name ++ " (choose from: " ++ ", ".intercalate e.choices
    ++ ")"

/-- The type that stands for a built-in type. -/
def Scalar.mapped : Scalar → String
  | .double | .float | .int32 | .uint32 | .sint32 | .fixed32 | .sfixed32 => "number"
  | .int64 | .uint64 | .sint64 | .fixed64 | .sfixed64 | .string | .bytes => "string"
  | .bool => "boolean"

/-- The type that stands for a written type: names of messages and enumerations stand for
themselves. -/
def mappedType (type : String) : String := (Scalar.ofKeyword? type).elim type Scalar.mapped

/-- The definition of an enumeration as a union of quoted names. -/
def Enumeration.definition (e : Enumeration) : String :=
  "export type " ++ e.name ++ " = "
    ++ " | ".intercalate (e.values.map fun v => "'" ++ v.name ++ "'") ++ ";"

/-- The type of a field in a notation. -/
def Field.definedType (t : Target) (f : Field) : String :=
  if f.repeated then t.listOf (mappedType f.type) else mappedType f.type

/-- The lines of the definition of a message. -/
def Message.definition (t : Target) (m : Message) : List String :=
  if m.fields.isEmpty then ["export type " ++ m.name ++ " = \x7b\x7d;"]
  else
    ("export type " ++ m.name ++ " = \x7b")
      :: m.fields.map (fun f => "  " ++ f.name ++ ": " ++ f.definedType t ++ ";") ++ ["\x7d;"]

/-- The blocks of a file: its enumerations, then each message after the enumerations nested in it,
which fields refer to by their plain names. -/
def SchemaFile.definitionBlocks (t : Target) (f : SchemaFile) : List (List String) :=
  f.enums.map (fun e => [e.definition])
    ++ f.messages.flatMap fun m => m.enums.map (fun e => [e.definition]) ++ [m.definition t]

/-- The opening lines: those of the notation, and the path of the file if it has one. -/
def SchemaFile.definitionHeader (t : Target) (f : SchemaFile) : List String :=
  t.header ++ match f.path with
    | none => []
    | some path => if path.isEmpty then [] else ["// Generated from " ++ path]

/-- The type definitions of a file. -/
def SchemaFile.definitions (t : Target) (f : SchemaFile) : String :=
  let header := f.definitionHeader t
  joinLines ((if header.isEmpty then [] else header ++ [""]) ++ spaced (f.definitionBlocks t))

end MessageIdl.Schema
