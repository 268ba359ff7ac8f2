import MessageIdl.Peg.Parser
import MessageIdl.Schema.Grammar

/-!
# Reading schemas

* `parse`: the tree of a text, or why there is none.
* `SchemaFile.summary`: what is told about a file that was read.
-/

namespace MessageIdl.Schema

open MessageIdl.Peg

/-- The name under which a text is known that comes from no file. -/
def memoryName : String := "<memory>"

/-- The parser of the schema grammar. -/
def parser : Except GrammarError (Parser Node) := Parser.ofGrammar grammar

/-- The tree of the text `src`, known as `file` in positions. -/
def parse (file src : String) : Except Stop SchemaFile := do
  match parser with
  | .error e => .error (.unusable e)
  | .ok p =>
      match ← p.parse file src with
      | .node (.file f) => .ok f
      | _ => .error (.raised .wrongKind)

/-- How many messages and enumerations a file has at its top level. -/
def SchemaFile.summary (f : SchemaFile) : String :=
  toString f.messages.length ++ " message(s), " ++ toString f.enums.length ++ " enum(s)"

end MessageIdl.Schema
