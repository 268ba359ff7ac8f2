import MessageIdl.Source.Position

/-!
# Message schemas

The tree of a schema file: messages with fields and nested enumerations, and enumerations.

* `Scalar`: the field types that are built in.
* `Field`, `Enumeration`, `Message`, `SchemaFile`: the nodes.  Spans say where a node was read and
  are no part of what it means.
* `SchemaFile.Same`: two files that differ in spans only.
-/

namespace MessageIdl.Schema

open MessageIdl.Source

/-- The built-in field types. -/
inductive Scalar where
  | double
  | float
  | int32
  | int64
  | uint32
  | uint64
  | sint32
  | sint64
  | fixed32
  | fixed64
  | sfixed32
  | sfixed64
  | bool
  | string
  | bytes
deriving DecidableEq

namespace Scalar

/-- All built-in types, in the order in which a reader tries them. -/
def all : List Scalar :=
  [.double, .float, .int32, .int64, .uint32, .uint64, .sint32, .sint64, .fixed32, .fixed64,
    .sfixed32, .sfixed64, .bool, .string, .bytes]

/-- The keyword of a built-in type. -/
def keyword : Scalar → String
  | .double => "double"
  | .float => "float"
  | .int32 => "int32"
  | .int64 => "int64"
  | .uint32 => "uint32"
  | .uint64 => "uint64"
  | .sint32 => "sint32"
  | .sint64 => "sint64"
  | .fixed32 => "fixed32"
  | .fixed64 => "fixed64"
  | .sfixed32 => "sfixed32"
  | .sfixed64 => "sfixed64"
  | .bool => "bool"
  | .string => "string"
  | .bytes => "bytes"

/-- The built-in type of a keyword. -/
def ofKeyword? (s : String) : Option Scalar := all.find? (·.keyword == s)

end Scalar

/-- One value of an enumeration. -/
structure EnumValue where
  name : String
  span : Option Span := none
deriving DecidableEq

/-- An enumeration and its values in source order. -/
structure Enumeration where
  name : String
  values : List EnumValue := []
  span : Option Span := none
deriving DecidableEq

/-- A field of a message.  Its type is the keyword of a built-in type or the name of a message or an
enumeration, just as it was written. -/
structure Field where
  name : String
  type : String
  repeated : Bool := false
  span : Option Span := none
deriving DecidableEq

/-- Whether the type of a field is built in. -/
def Field.isScalar (f : Field) : Bool := (Scalar.ofKeyword? f.type).isSome

/-- A message with its fields and the enumerations nested in it. -/
structure Message where
  name : String
  fields : List Field := []
  enums : List Enumeration := []
  span : Option Span := none
deriving DecidableEq

/-- The messages and the enumerations at the top level of a file, and the path of the file if it was
read from one. -/
structure SchemaFile where
  messages : List Message := []
  enums : List Enumeration := []
  path : Option String := none
  span : Option Span := none
deriving DecidableEq

/-! ### Equality up to layout -/

/-- A value without its span. -/
def EnumValue.bare (v : EnumValue) : EnumValue := { v with span := none }

/-- An enumeration without spans. -/
def Enumeration.bare (e : Enumeration) : Enumeration :=
  { e with values := e.values.map EnumValue.bare, span := none }

/-- A field without its span. -/
def Field.bare (f : Field) : Field := { f with span := none }

/-- A message without spans. -/
def Message.bare (m : Message) : Message :=
  { m with fields := m.fields.map Field.bare, enums := m.enums.map Enumeration.bare, span := none }

/-- A file without spans. -/
def SchemaFile.bare (f : SchemaFile) : SchemaFile :=
  { f with
    messages := f.messages.map Message.bare, enums := f.enums.map Enumeration.bare, span := none }

/-- Two files say the same if they differ in spans only. -/
def SchemaFile.Same (a b : SchemaFile) : Prop := a.bare = b.bare

instance (a b : SchemaFile) : Decidable (a.Same b) :=
  inferInstanceAs (Decidable (a.bare = b.bare))

end MessageIdl.Schema
