import MessageIdl.Files.Load
import MessageIdl.Schema.Definitions

/-!
# Programs as dialogues with a file system

A program that works on files is a finite tree of questions: each asks for one operation and goes on
with what comes back.  So a program can be run on a tree of files, where everything about it can be
said and proved, and on real files alike.  What holds on trees holds on real files as far as these answer
like a tree: without links, and with writes that either fail to open or store all that they are given.

* `Dialogue`: the questions.
* `Dialogue.runOn`: the dialogue with a tree of files.
* `Reply`: what a program leaves behind: what it wrote to its two output streams, and how it ended.
-/

namespace MessageIdl.CommandLine

open MessageIdl.Files

/-- A program that ends with a result, or asks for an operation on files and goes on with the answer.
Writing answers with a failure or nothing. -/
inductive Dialogue (ρ : Type) where
  | done (result : ρ)
  | read (path : Path) (next : Except Failure (List UInt8) → Dialogue ρ)
  | write (path : Path) (content : List UInt8) (next : Option Failure → Dialogue ρ)
  | makeDirectories (path : Path) (next : Option (Failure × Path) → Dialogue ρ)

/-- The result of a program and the tree it leaves, on a tree of files and in a directory. -/
def Dialogue.runOn {ρ : Type} (here : List String) (t : Tree) : Dialogue ρ → ρ × Tree
  | .done result => (result, t)
  | .read path next => (next (t.read here path)).runOn here t
  | .write path content next =>
      match t.write here path content with
      | .ok t' => (next none).runOn here t'
      | .error f => (next (some f)).runOn here t
  | .makeDirectories path next =>
      let (t', outcome) := t.makeDirectories path
      (next outcome).runOn here t'

/-- What a program has written to its two output streams. -/
structure Transcript where
  out : String := ""
  err : String := ""
deriving DecidableEq

/-- What ends a program before it has come to an exit of its own. -/
inductive Crash where
  | badPath (fault : PathFault)
  | noPath
  | noTarget (complaint : Schema.UnknownTarget)
  | notLoaded (error : LoadError)
  | system (failure : Failure) (path : Path)
  | noSeed
  | noCount
  | gaveUp
deriving DecidableEq

/-- How a program ends. -/
inductive Ending where
  | exit (status : Nat)
  | crash (cause : Crash)
deriving DecidableEq

/-- What is left of a run besides files. -/
structure Reply where
  transcript : Transcript
  ending : Ending
deriving DecidableEq

/-- The wording of what ends a program. -/
def Crash.message : Crash → String
  | .badPath fault => fault.message
  | .noPath => "expected str, bytes or os.PathLike object, not list"
  | .noTarget complaint => complaint.message
  | .notLoaded (.badPath fault) => fault.message
  | .notLoaded (.unreadable path reason) => unreadableMessage path reason
  | .notLoaded (.unknownEncoding name) => "unknown encoding: " ++ name
  | .notLoaded (.stopped (.rejected e)) => e.message
  | .notLoaded (.stopped (.raised fault)) => fault.message
  | .notLoaded (.stopped .exhausted) => "maximum recursion depth exceeded"
  | .notLoaded (.stopped (.unusable e)) => e.message
  | .system failure path =>
      "[Errno " ++ toString failure.number ++ "] " ++ failure.reason ++ ": "
        ++ Text.quoted path.display
  | .noSeed => "unhashable type: 'list'"
  | .noCount => "'list' object cannot be interpreted as an integer"
  | .gaveUp => "no draw was accepted"

/-- The transcript with a line of the log, which goes to the second stream. -/
def Transcript.log (t : Transcript) (level logger text : String) : Transcript :=
  { t with err := t.err ++ level ++ " " ++ logger ++ ": " ++ text ++ "\n" }

/-- The transcript with a line of output. -/
def Transcript.print (t : Transcript) (text : String) : Transcript :=
  { t with out := t.out ++ text ++ "\n" }

end MessageIdl.CommandLine
