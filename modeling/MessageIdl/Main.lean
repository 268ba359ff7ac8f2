import MessageIdl.CommandLine.Generate

/-!
# The command line

Runs the generator of type definitions on real files.  All decisions are made by
`Generate.program`; this module carries out the operations that it asks for.
-/

namespace MessageIdl.CommandLine

open MessageIdl.Files

/-- The failure that an error of the file system stands for. -/
def failureOf (e : IO.Error) : Failure :=
  match e with
  | .noFileOrDirectory .. => .missing
  | .alreadyExists .. => .alreadyThere
  | .inappropriateType _ 20 _ => .notADirectory
  | .inappropriateType _ 21 _ => .isADirectory
  | .invalidArgument _ 36 _ => .nameTooLong
  | .permissionDenied _ number _ => .other number.toNat "Permission denied"
  | e => .other 0 e.toString

/-- Carries out a dialogue on real files. -/
def Dialogue.perform {ρ : Type} : Dialogue ρ → IO ρ
  | .done result => pure result
  | .read path next => do
      let content ← (IO.FS.readBinFile path.display).toBaseIO
      match content with
      | .ok bytes => (next (.ok bytes.toList)).perform
      | .error e => (next (.error (failureOf e))).perform
  | .write path content next => do
      match ← (IO.FS.writeBinFile path.display ⟨content.toArray⟩).toBaseIO with
      | .ok () => (next none).perform
      | .error e => (next (some (failureOf e))).perform
  | .makeDirectories path next => do
      match ← (IO.FS.createDirAll path.display).toBaseIO with
      | .ok () => (next none).perform
      | .error e => (next (some (failureOf e, path))).perform

/-- The current directory and the home directory of the process. -/
def currentSetting : IO Setting := do
  let here := (Path.ofText (toString (← IO.currentDir))).parts
  let home := (← IO.getEnv "HOME").elim [] fun text => (Path.ofText text).parts
  pure { here, home }

/-- Shows what a run left behind, and gives back its exit status. -/
def Reply.present (r : Reply) : IO UInt32 := do
  IO.print r.transcript.out
  IO.eprint r.transcript.err
  match r.ending with
  | .exit status => pure (UInt32.ofNat status)
  | .crash cause => do
      IO.eprintln cause.message
      pure 1

end MessageIdl.CommandLine

/-- Runs the generator with the arguments of the process. -/
def main (arguments : List String) : IO UInt32 := do
  let setting ← MessageIdl.CommandLine.currentSetting
  (← (MessageIdl.CommandLine.Generate.program setting arguments).perform).present
