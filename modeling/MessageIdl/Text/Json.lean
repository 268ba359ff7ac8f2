import MessageIdl.Text.Quoted

/-!
# JSON text

JSON values without numbers, and their one written form: ASCII only, two blanks of indentation for
each level, every member and element on a line of its own.

* `Json`: the values; an object lists its members in the order in which they are written.
* `Json.encode`: a string in its quoted form.
* `Json.render`: the text of a value.
-/

namespace MessageIdl.Text

/-- A JSON value; an object keeps its members in writing order. -/
inductive Json where
  | null
  | bool (b : Bool)
  | string (s : String)
  | array (items : List Json)
  | object (members : List (String × Json))

namespace Json

/-- A 16-bit unit by its four hexadecimal digits. -/
def unitEscape (n : Nat) : List Char := '\\' :: 'u' :: lowerHex 4 n

/-- The written form of one character of a string: short forms for the two marks and five controls,
the other printable ASCII characters as they are, anything else by its one or two 16-bit units. -/
def encodeChar (c : Char) : List Char :=
  if c = '"' then ['\\', '"']
  else if c = '\\' then ['\\', '\\']
  else if c = '\n' then ['\\', 'n']
  else if c = '\r' then ['\\', 'r']
  else if c = '\t' then ['\\', 't']
  else if c = '\x0c' then ['\\', 'f']
  else if c = '\x08' then ['\\', 'b']
  else if 0x20 ≤ c.toNat ∧ c.toNat < 0x7f then [c]
  else if c.toNat < 0x10000 then unitEscape c.toNat
  else
    let n := c.toNat - 0x10000
    unitEscape (0xd800 + n / 0x400) ++ unitEscape (0xdc00 + n % 0x400)

/-- A string between double quotation marks. -/
def encode (s : String) : List Char := '"' :: (s.toList.flatMap encodeChar ++ ['"'])

/-- The start of a new line with `depth` levels of indentation. -/
def newLine (depth : Nat) : List Char := '\n' :: List.replicate (2 * depth) ' '

mutual

/-- The characters of a value whose first line is already indented by `depth` levels. -/
def renderAt (depth : Nat) : Json → List Char
  | .null => ['n', 'u', 'l', 'l']
  | .bool true => ['t', 'r', 'u', 'e']
  | .bool false => ['f', 'a', 'l', 's', 'e']
  | .string s => encode s
  | .array [] => ['[', ']']
  | .array (item :: items) =>
      '[' :: (newLine (depth + 1) ++ renderAt (depth + 1) item ++ renderItems (depth + 1) items
        ++ newLine depth ++ [']'])
  | .object [] => ['\x7b', '\x7d']
  | .object ((key, value) :: members) =>
      '\x7b' :: (newLine (depth + 1) ++ encode key ++ [':', ' '] ++ renderAt (depth + 1) value
        ++ renderMembers (depth + 1) members ++ newLine depth ++ ['\x7d'])

/-- The elements of an array after its first one, each after a comma and on a new line. -/
def renderItems (depth : Nat) : List Json → List Char
  | [] => []
  | item :: items => ',' :: (newLine depth ++ renderAt depth item ++ renderItems depth items)

/-- The members of an object after its first one, each after a comma and on a new line. -/
def renderMembers (depth : Nat) : List (String × Json) → List Char
  | [] => []
  | (key, value) :: members =>
      ',' :: (newLine depth ++ encode key ++ [':', ' '] ++ renderAt depth value
        ++ renderMembers depth members)

end

/-- The text of a value. -/
def render (v : Json) : String := String.ofList (renderAt 0 v)

end Json

end MessageIdl.Text
