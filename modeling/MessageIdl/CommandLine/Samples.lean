import MessageIdl.CommandLine.Generate
import MessageIdl.Corpus.Sources

/-!
# The generator of sample files

The program that writes a number of sample schemas into a directory of their own.

* `Samples.usage`: its arguments.
* `Samples.program`: the dialogue of a command line.
-/

namespace MessageIdl.CommandLine.Samples

open MessageIdl.Files MessageIdl.Corpus

/-- What can be given to the program. -/
inductive Argument where
  | help
  | seed
  | count
  | noisy
  | out
deriving DecidableEq

/-- The first lines of the help text, which also stand before every mistake. -/
def synopsis : String :=
  "usage: generate_corpus [-h] [--seed SEED] [--count COUNT] [--noisy]\n"
    ++ "                       [--out OUT]\n"

/-- The rest of the help text. -/
def helpText : String :=
  "\noptions:\n"
    ++ "  -h, --help     show this help message and exit\n"
    ++ "  --seed SEED\n"
    ++ "  --count COUNT\n"
    ++ "  --noisy        Fill token gaps with random comments/whitespace\n"
    ++ "  --out OUT\n"

/-- The complaint about a value that is no integer. -/
def integerComplaint (value : String) : Option String :=
  match Text.readInteger? value with
  | some _ => none
  | none => some ("invalid int value: " ++ Text.quoted value)

/-- The arguments of the program. -/
def usage : Usage Argument where
  program := "generate_corpus"
  synopsis := synopsis
  helpText := helpText
  options :=
    [{ key := .help, names := ["-h", "--help"] },
      { key := .seed, names := ["--seed"], takesValue := true },
      { key := .count, names := ["--count"], takesValue := true },
      { key := .noisy, names := ["--noisy"] },
      { key := .out, names := ["--out"], takesValue := true }]
  positionals := []
  required := []
  help := .help
  complaint
    | .seed, value => integerComplaint value
    | .count, value => integerComplaint value
    | _, _ => none

/-- What a command line asks for.  A value is missing where a separator was given for it. -/
structure Request where
  seed : Option Int
  count : Option Int
  noisy : Bool
  out : Option String

/-- The integer given for a key, or the usual one. -/
def integerOr (given : List (Given Argument)) (key : Argument) (usual : Int) : Option Int :=
  match last? given key with
  | none => some usual
  | some g => g.value.bind Text.readInteger?

/-- The request of what was given. -/
def Request.ofGiven (given : List (Given Argument)) : Request where
  seed := integerOr given .seed 1
  count := integerOr given .count 1000
  noisy := has given .noisy
  out := match last? given .out with
    | none => some "tests/fixtures/generated_corpus"
    | some g => g.value

/-- An integer as a part of a name; a missing one shows as an empty list. -/
def shown (n : Option Int) : String := n.elim "[]" toString

/-- The name of the directory of a request. -/
def Request.directoryName (r : Request) : String :=
  "seed_" ++ shown r.seed ++ "_count_" ++ shown r.count ++ (if r.noisy then "_noisy" else "")

/-- The end of a run that failed. -/
def crashed (cause : Crash) : Reply := { transcript := {}, ending := .crash cause }

/-- Writes files into a directory, one after the other. -/
def writing (directory : Path) : List (String × String) → Dialogue Reply
  | [] => .done { transcript := Transcript.print {} directory.display, ending := .exit 0 }
  | (name, text) :: rest =>
      .write (directory.child name) (Text.encodeUtf8 text) fun
        | some f => .done (crashed (.system f (directory.child name)))
        | none => writing directory rest

/-- The steps after the directory was made. -/
def filling (r : Request) (directory : Path) : Dialogue Reply :=
  match r.seed, r.count with
  | none, _ => .done (crashed .noSeed)
  | some _, none => .done (crashed .noCount)
  | some seed, some count =>
      match sources seed count r.noisy with
      | none => .done (crashed .gaveUp)
      | some texts => writing directory (named texts)

/-- The run of a request. -/
def perform (s : Setting) (r : Request) : Dialogue Reply :=
  match r.out with
  | none => .done (crashed .noPath)
  | some out =>
      match (Path.ofText out).resolve s.here with
      | .error fault => .done (crashed (.badPath fault))
      | .ok path =>
          let directory := path.child r.directoryName
          .makeDirectories directory fun
            | some (f, at_) => .done (crashed (.system f at_))
            | none => filling r directory

/-- The run of a command line. -/
def program (s : Setting) (arguments : List String) : Dialogue Reply :=
  match usage.scan arguments with
  | .error interrupt => .done (usage.reply interrupt)
  | .ok given => perform s (.ofGiven given)

end MessageIdl.CommandLine.Samples
