import MessageIdl.Files.Tree
import MessageIdl.Schema.Parse
import MessageIdl.Text.Encoding

/-!
# Schemas in files

From the bytes of a file to its tree: decoding, line breaks, parsing.

* `sourcePath`: the full path of the file that a text names.
* `load`: the tree of a file, from what reading it gave.
* `LoadError`: why there is no tree.
-/

namespace MessageIdl.Files

open MessageIdl.Schema MessageIdl.Peg MessageIdl.Text

/-- Where relative paths begin, where `~` leads, and where it leads with the name of another user
behind it. -/
structure Setting where
  here : List String
  home : List String
  homeOf : String → Option (List String) := fun _ => none

/-- Why a file gives no tree. -/
inductive LoadError where
  | badPath (fault : PathFault)
  | unreadable (path reason : String)
  | unknownEncoding (name : String)
  | stopped (stop : Stop)
deriving DecidableEq

/-- The wording for a file that cannot be read. -/
def unreadableMessage (path reason : String) : String :=
  path ++ ": cannot read file: " ++ reason

/-- The full path of the file that a text names. -/
def sourcePath (s : Setting) (text : String) : Except PathFault Path := do
  (← (Path.ofText text).expandHome s.home s.homeOf).resolve s.here

/-- The text of a file with the given bytes. -/
def decodeSource (path encodingName : String) (bytes : List UInt8) : Except LoadError String :=
  match Encoding.named? encodingName with
  | none => .error (.unknownEncoding encodingName)
  | some encoding =>
      match encoding.decode bytes with
      | .ok chars => .ok (String.ofList (unifyLineBreaks chars))
      | .error fault =>
          .error (.unreadable path ("not valid " ++ encodingName ++ ": " ++ fault.message))

/-- The tree of the file at a path, from what reading it gave; the tree keeps the path. -/
def load (path : Path) (encodingName : String) (content : Except Failure (List UInt8)) :
    Except LoadError SchemaFile :=
  let shown := path.display
  match content with
  | .error f => .error (.unreadable shown f.reason)
  | .ok bytes =>
      match decodeSource shown encodingName bytes with
      | .error e => .error e
      | .ok src =>
          match parse shown src with
          | .ok file => .ok { file with path := some shown }
          | .error stop => .error (.stopped stop)

/-- The encoding of files for which none is named. -/
def defaultEncoding : String := "utf-8"

/-- The tree of the file that a text names, in a tree of files. -/
def Tree.load (t : Tree) (s : Setting) (text encodingName : String) :
    Except LoadError SchemaFile :=
  match sourcePath s text with
  | .error fault => .error (.badPath fault)
  | .ok path => Files.load path encodingName (t.read s.here path)

end MessageIdl.Files
