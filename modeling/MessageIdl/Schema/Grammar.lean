import MessageIdl.Peg.Productions
import MessageIdl.Schema.Lexical

/-!
# The grammar of schemas

The rules of the schema language and the actions that build the tree from the bottom up.  Choices
are ordered: the first alternative that matches wins.

* `Node`: what the actions build.
* `grammar`: the rules.
-/

namespace MessageIdl.Schema

open MessageIdl.Peg MessageIdl.Source

/-- The nodes of a schema tree. -/
inductive Node where
  | enumValue (v : EnumValue)
  | enumeration (e : Enumeration)
  | field (f : Field)
  | message (m : Message)
  | file (f : SchemaFile)

/-! ### Reading the values of a match -/

/-- The value at an index. -/
def valueAt (values : List (Value Node)) (i : Nat) : Except Fault (Value Node) :=
  match values[i]? with
  | some v => .ok v
  | none => .error .tooFewValues

/-- The text at an index. -/
def textAt (values : List (Value Node)) (i : Nat) : Except Fault String := do
  match ← valueAt values i with
  | .text s => .ok s
  | _ => .error .wrongKind

/-- The list at an index; nothing counts as an empty list. -/
def listAt (values : List (Value Node)) (i : Nat) : Except Fault (List (Value Node)) := do
  match ← valueAt values i with
  | .absent => .ok []
  | .list items => .ok items
  | _ => .error .wrongKind

/-- Whether there is anything at an index. -/
def presentAt (values : List (Value Node)) (i : Nat) : Except Fault Bool := do
  match ← valueAt values i with
  | .absent => .ok false
  | _ => .ok true

/-- The fields and the enumerations in the body of a message, each in source order. -/
def splitMembers : List (Value Node) → Except Fault (List Field × List Enumeration)
  | [] => .ok ([], [])
  | v :: rest => do
      let (fields, enums) ← splitMembers rest
      match v with
      | .node (.field f) => .ok (f :: fields, enums)
      | .node (.enumeration e) => .ok (fields, e :: enums)
      | _ => .error .wrongKind

/-- The messages and the enumerations of a file, each in source order. -/
def splitDeclarations : List (Value Node) → Except Fault (List Message × List Enumeration)
  | [] => .ok ([], [])
  | v :: rest => do
      let (messages, enums) ← splitDeclarations rest
      match v with
      | .node (.message m) => .ok (m :: messages, enums)
      | .node (.enumeration e) => .ok (messages, e :: enums)
      | _ => .error .wrongKind

/-- The values of an enumeration; anything else is left out. -/
def enumValues (items : List (Value Node)) : List EnumValue :=
  items.filterMap fun
    | .node (.enumValue v) => some v
    | _ => none

/-! ### Actions -/

/-- Passes the first value on. -/
def passOn : Action Node := .first "act_passthrough"

/-- Drops a unit of a gap. -/
def dropGap : Action Node := .nothing "act_none"

/-- Marks that a word is there. -/
def mark : Action Node := .flag "act_true"

/-- Builds a field from `[repeated?, type, gap, name, gap, "=", gap, number, gap, ";", gap]`. -/
def buildField : Action Node where
  name := "act_field"
  build values span := do
    let name ← textAt values 3
    let type ← textAt values 1
    let repeated ← presentAt values 0
    .ok (.node (.field { name, type, repeated, span := some span }))

/-- Builds a value of an enumeration from `[name, gap, "=", gap, number, gap, ";", gap]`. -/
def buildEnumValue : Action Node where
  name := "act_enum_value"
  build values span := do
    .ok (.node (.enumValue { name := ← textAt values 0, span := some span }))

/-- Builds an enumeration from `["enum", gap, name, gap, brace, gap, values, brace, gap]`. -/
def buildEnumeration : Action Node where
  name := "act_enum"
  build values span := do
    let items ← listAt values 6
    let name ← textAt values 2
    .ok (.node (.enumeration { name, values := enumValues items, span := some span }))

/-- Builds a message from `["message", gap, name, gap, brace, gap, members, brace, gap]`. -/
def buildMessage : Action Node where
  name := "act_message"
  build values span := do
    let (fields, enums) ← splitMembers (← listAt values 6)
    let name ← textAt values 2
    .ok (.node (.message { name, fields, enums, span := some span }))

/-- Builds a file from `[gap, declarations, end]`. -/
def buildFile : Action Node where
  name := "act_file"
  build values span := do
    let (messages, enums) ← splitDeclarations (← listAt values 1)
    .ok (.node (.file { messages, enums, span := some span }))

/-! ### Rules -/

/-- A rule with one alternative for each pair of symbols and an action. -/
def ruleOf (name : String) (alternatives : List (List (Expr Node) × Action Node)) : Rule Node where
  name
  body := ruleBody (alternatives.map fun a => boundBody a.2 a.1)

/-- Any number of units of a gap. -/
def gap : Expr Node := .repeated 0 (.ref "_")

/-- At least one unit of a gap. -/
def gap1 : Expr Node := .repeated 1 (.ref "_")

/-- One unit of a gap. -/
def gapRule : Rule Node := ruleOf "_" [([gapUnit], dropGap)]

/-- The word that makes a field repeated. -/
def repeatedRule : Rule Node := ruleOf "Repeated" [([terminal .repeated, gap1], mark)]

/-- A type is the keyword of a built-in type, or a name where no keyword begins. -/
def fieldTypeRule : Rule Node :=
  ruleOf "FieldType"
    (Scalar.all.map (fun s => ([.literal s.keyword], passOn)) ++ [([name], passOn)])

/-- A field with its number. -/
def fieldRule : Rule Node :=
  ruleOf "FieldDefinition"
    [([.optional (.ref "Repeated"), .ref "FieldType", gap1, name, gap, terminal .equals, gap, number,
      gap, terminal .semicolon, gap], buildField)]

/-- A value of an enumeration with its number. -/
def enumValueRule : Rule Node :=
  ruleOf "EnumValue"
    [([name, gap1, terminal .equals, gap1, number, gap, terminal .semicolon, gap], buildEnumValue)]

/-- An enumeration has at least one value. -/
def enumRule : Rule Node :=
  ruleOf "EnumDefinition"
    [([terminal .enum, gap1, name, gap, terminal .openBrace, gap, .repeated 1 (.ref "EnumValue"),
      terminal .closeBrace, gap], buildEnumeration)]

/-- What may stand in the body of a message. -/
def memberRule : Rule Node :=
  ruleOf "MessageInternal"
    [([.ref "FieldDefinition"], passOn), ([.ref "EnumDefinition"], passOn)]

/-- A message with any number of members. -/
def messageRule : Rule Node :=
  ruleOf "MessageDefinition"
    [([terminal .message, gap, name, gap, terminal .openBrace, gap,
      .repeated 0 (.ref "MessageInternal"), terminal .closeBrace, gap], buildMessage)]

/-- What may stand at the top level. -/
def declarationRule : Rule Node :=
  ruleOf "MessageOrEnum"
    [([.ref "MessageDefinition"], passOn), ([.ref "EnumDefinition"], passOn)]

/-- A file is a gap and any number of declarations, up to its end. -/
def fileRule : Rule Node :=
  ruleOf "ProtocolFile" [([gap, .repeated 0 (.ref "MessageOrEnum"), .endOfInput], buildFile)]

/-- The grammar of schema files. -/
def grammar : Grammar Node where
  start := "ProtocolFile"
  rules :=
    [gapRule, repeatedRule, fieldTypeRule, fieldRule, enumValueRule, enumRule, memberRule,
      messageRule, declarationRule, fileRule]

/-- The description of the grammar: its start rule, the number of its rules, and each rule. -/
def describe (g : Grammar Node) : String :=
  String.join
    ((["start: " ++ g.start, "rules: " ++ toString g.rules.length] ++ g.rules.map Rule.display).map
      (· ++ "\n"))

end MessageIdl.Schema
