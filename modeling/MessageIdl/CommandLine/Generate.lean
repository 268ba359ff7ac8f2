import MessageIdl.CommandLine.Arguments
import MessageIdl.CommandLine.Dialogue
import MessageIdl.Schema.Definitions
import MessageIdl.Schema.Json

/-!
# The generator of type definitions

The program that reads a schema file and writes a file of type definitions.

* `Generate.usage`: its arguments.
* `Generate.program`: the dialogue of a command line.

It reads, then writes: the only file it ever changes is the one for the definitions, and that as its
last step.

The arguments and the names of directories are texts of Unicode scalar values.  So the definitions, which
show the full path of the schema, always have a UTF-8 form, and writing them is one operation that fails or
stores all of them.  Nothing is said of paths with other names: there the file for the definitions could be
opened, and so emptied, before it turns out that its text has no UTF-8 form.
-/

namespace MessageIdl.CommandLine

open MessageIdl.Files MessageIdl.Schema

/-- The reply to a command line that is not carried out. -/
def Usage.reply {κ : Type} (u : Usage κ) : Interrupt → Reply
  | .help => { transcript := { out := u.synopsis ++ u.helpText }, ending := .exit 0 }
  | .mistake text =>
      { transcript := { err := u.synopsis ++ u.program ++ ": error: " ++ text ++ "\n" }
        ending := .exit 2 }

/-- The complaint about a value that is none of the choices. -/
def choiceComplaint (choices : List String) (value : String) : Option String :=
  if choices.contains value then none
  else some ("invalid choice: " ++ Text.quoted value ++ " (choose from "
    ++ ", ".intercalate (choices.map Text.quoted) ++ ")")

namespace Generate

/-- What can be given to the program. -/
inductive Argument where
  | help
  | source
  | output
  | target
  | tree
  | verbose
deriving DecidableEq

/-- The first lines of the help text, which also stand before every mistake. -/
def synopsis : String :=
  "usage: prototyper [-h] -s \x7bflow,typescript\x7d [--ast] [-v]\n"
    ++ "                  protocol_file type_definition_file\n"

/-- The rest of the help text. -/
def helpText : String :=
  "\nGenerate type definitions from a .proto message file\n"
    ++ "\npositional arguments:\n"
    ++ "  protocol_file         Input .proto file\n"
    ++ "  type_definition_file  Output type definition file\n"
    ++ "\noptions:\n"
    ++ "  -h, --help            show this help message and exit\n"
    ++ "  -s \x7bflow,typescript\x7d, --syntax \x7bflow,typescript\x7d\n"
    ++ "                        Choose your language syntax\n"
    ++ "  --ast                 Also print the parsed AST as JSON\n"
    ++ "  -v, --verbose         Enable debug logging\n"
    ++ "\nexamples:\n"
    ++ "  prototyper file.proto typeDef.js -s flow\n"
    ++ "  prototyper file.proto typeDef.ts --syntax typescript\n"

/-- The arguments of the program. -/
def usage : Usage Argument where
  program := "prototyper"
  synopsis := synopsis
  helpText := helpText
  options :=
    [{ key := .help, names := ["-h", "--help"] },
      { key := .target, names := ["-s", "--syntax"], takesValue := true },
      { key := .tree, names := ["--ast"] },
      { key := .verbose, names := ["-v", "--verbose"] }]
  positionals := [.source, .output]
  required :=
    [(.source, "protocol_file"), (.output, "type_definition_file"), (.target, "-s/--syntax")]
  help := .help
  complaint
    | .target, value => choiceComplaint (Target.all.map Target.name) value
    | _, _ => none

/-- What a command line asks for.  A value is missing where a separator was given for it. -/
structure Request where
  source : Option String
  output : Option String
  target : Option Target
  tree : Bool
  verbose : Bool

/-- The request of what was given. -/
def Request.ofGiven (given : List (Given Argument)) : Request where
  source := (last? given .source).bind (·.value)
  output := (last? given .output).bind (·.value)
  target := ((last? given .target).bind (·.value)).bind Target.named?
  tree := has given .tree
  verbose := has given .verbose

/-- The logger of the program itself. -/
def logger : String := "prototyper.cli"

/-- A line of the log that only a verbose run shows. -/
def note (r : Request) (level logger text : String) (t : Transcript) : Transcript :=
  if r.verbose then t.log level logger text else t

/-- The end of a run that failed in an expected way. -/
def failed (text : String) (t : Transcript) : Reply :=
  { transcript := t.log "ERROR" logger text, ending := .exit 1 }

/-- The end of a run that failed in an unexpected way. -/
def crashed (cause : Crash) (t : Transcript) : Reply := { transcript := t, ending := .crash cause }

/-- The last step: the definitions are written, and the outcome is told. -/
def writing (r : Request) (path : Path) (text : String) (t : Transcript) : Dialogue Reply :=
  if path.hasZero then .done (crashed (.badPath .zeroCharacter) t)
  else .write path (Text.encodeUtf8 text) fun
    | some f =>
        .done (failed (path.display ++ ": cannot write file: " ++ f.reason) t)
    | none =>
        .done { transcript := note r "INFO" logger ("wrote " ++ path.display) t, ending := .exit 0 }

/-- The steps after the schema was read: printing the tree if asked for, and the definitions. -/
def emitting (r : Request) (file : SchemaFile) (t : Transcript) : Dialogue Reply :=
  let t := if r.tree then t.print file.json.render else t
  match r.output, r.target with
  | none, _ => .done (crashed .noPath t)
  | some _, none => .done (crashed (.noTarget { name := "[]" }) t)
  | some output, some target =>
      let shown := match file.path with
        | none => memoryName
        | some path => if path.isEmpty then memoryName else path
      let t := note r "DEBUG" "prototyper.codegen"
        ("emitting " ++ target.name ++ " definitions for " ++ shown) t
      writing r (.ofText output) (file.definitions target) t

/-- The steps after the file was read. -/
def reading (r : Request) (path : Path) (content : Except Failure (List UInt8)) : Dialogue Reply :=
  match load path defaultEncoding content with
  | .error (.unreadable path reason) => .done (failed (unreadableMessage path reason) {})
  | .error (.stopped (.rejected e)) => .done (failed e.message {})
  | .error e => .done (crashed (.notLoaded e) {})
  | .ok file =>
      emitting r file
        (note r "DEBUG" "prototyper.api" ("parsed " ++ path.display ++ ": " ++ file.summary) {})

/-- The run of a request. -/
def perform (s : Setting) (r : Request) : Dialogue Reply :=
  match r.source with
  | none => .done (crashed .noPath {})
  | some source =>
      match sourcePath s source with
      | .error fault => .done (crashed (.badPath fault) {})
      | .ok path => .read path (reading r path)

/-- The run of a command line. -/
def program (s : Setting) (arguments : List String) : Dialogue Reply :=
  match usage.scan arguments with
  | .error interrupt => .done (usage.reply interrupt)
  | .ok given => perform s (.ofGiven given)

end Generate

end MessageIdl.CommandLine
