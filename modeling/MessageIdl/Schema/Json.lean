import MessageIdl.Schema.Basic
import MessageIdl.Text.Json

/-!
# Schemas as JSON

The tree of a file without its spans, every object with its members in the order of their keys.

* `SchemaFile.json`: the JSON value of a file.
-/

namespace MessageIdl.Schema

open MessageIdl.Text (Json)

/-- The JSON value of a value of an enumeration. -/
def EnumValue.json (v : EnumValue) : Json := .object [("value", .string v.name)]

/-- The JSON value of an enumeration. -/
def Enumeration.json (e : Enumeration) : Json :=
  .object [("name", .string e.name), ("values", .array (e.values.map EnumValue.json))]

/-- The JSON value of a field. -/
def Field.json (f : Field) : Json :=
  .object [("name", .string f.name), ("repeated", .bool f.repeated), ("type", .string f.type)]

/-- The JSON value of a message. -/
def Message.json (m : Message) : Json :=
  .object [("enums", .array (m.enums.map Enumeration.json)),
    ("fields", .array (m.fields.map Field.json)), ("name", .string m.name)]

/-- The JSON value of a file. -/
def SchemaFile.json (f : SchemaFile) : Json :=
  .object [("enums", .array (f.enums.map Enumeration.json)),
    ("full_path", f.path.elim .null .string),
    ("messages", .array (f.messages.map Message.json))]

end MessageIdl.Schema
