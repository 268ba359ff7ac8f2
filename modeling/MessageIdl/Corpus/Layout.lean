import MessageIdl.Corpus.Sketch
import MessageIdl.Schema.Lexical

/-!
# Layout of sample files

A sketch is laid out as a row of tokens with gaps between them.  A gap is filled with its plain
filling, or with noise: blanks and comments drawn from a stream of their own.

* `Piece`: a token or a gap.
* `pieces`: the row of a sketch.
* `plainText`, `noisyText`: the two ways of filling the gaps.
-/

namespace MessageIdl.Corpus

open MessageIdl.Schema

/-- A token, or a gap with its plain filling; a required gap must not be empty. -/
inductive Piece where
  | token (text : String)
  | gap (plain : String) (required : Bool)

/-- A gap that may be empty. -/
def loose (plain : String) : Piece := .gap plain false

/-- A gap that must not be empty. -/
def tight : Piece := .gap " " true

/-- The start of a line with `n` blanks. -/
def lineStart (n : Nat) : String := "\n" ++ String.ofList (List.replicate n ' ')

/-- The pieces of a value and its number. -/
def valuePieces (depth number : Nat) (name : String) : List Piece :=
  [loose (lineStart (depth + 2)), .token name, tight, .token "=", tight, .token (toString number),
    loose "", .token ";"]

/-- The pieces of an enumeration at an indentation. -/
def EnumSketch.pieces (depth : Nat) (e : EnumSketch) : List Piece :=
  [.token "enum", tight, .token e.name, loose " ", .token "\x7b"]
    ++ (e.values.mapIdx (valuePieces depth)).flatten ++ [loose (lineStart depth), .token "\x7d"]

/-- The pieces of a field. -/
def FieldSketch.pieces (f : FieldSketch) : List Piece :=
  (if f.repeated then [.token "repeated", tight] else [])
    ++ [.token f.type, tight, .token f.name, loose " ", .token "=", loose " ",
      .token (toString f.number), loose "", .token ";"]

/-- The pieces of a member of a message. -/
def MemberSketch.pieces : MemberSketch → List Piece
  | .field f => loose (lineStart 2) :: f.pieces
  | .enumeration e => loose (lineStart 2) :: e.pieces 2

/-- The pieces of a declaration. -/
def DeclarationSketch.pieces : DeclarationSketch → List Piece
  | .enumeration e => e.pieces 0
  | .message name members =>
      [.token "message", tight, .token name, loose " ", .token "\x7b"]
        ++ members.flatMap MemberSketch.pieces
        ++ [loose (if members.isEmpty then "" else "\n"), .token "\x7d"]

/-- The pieces of a file, with gaps around and between its declarations. -/
def pieces (sketch : List DeclarationSketch) : List Piece :=
  loose "" :: ((sketch.map DeclarationSketch.pieces).intersperse [loose "\n\n"]).flatten
    ++ [loose "\n"]

/-! ### Noise -/

variable {σ : Type}

/-- The characters of generated comments. -/
def commentCharacters : List Char := alphanumerics ++ " \t\x7b\x7d=;_$.,#'\"-".toList

/-- The characters of generated comments that may run over several lines. -/
def blockCharacters : List Char := commentCharacters ++ ['\n']

/-- One unit of noise: some blanks, a line comment, or a block comment. -/
def noiseUnit (r : Stream σ) : Draw σ String := fun s =>
  let (k, s) := r.fraction s
  let unit : Draw σ String := do
    if k < oneHalf then
      String.ofList <$> times (r.choose blanks) (← r.between 1 3)
    else if k < oneHalf + oneQuarter then
      let body ← times (r.choose commentCharacters) (← r.between 0 20)
      pure ("//" ++ String.ofList body ++ "\n")
    else
      let body ← times (r.choose blockCharacters) (← r.between 0 20)
      pure ("/*" ++ String.ofList body ++ "*/")
  unit s

/-- Blanks and comments for a gap; never none for a required one. -/
def noise (r : Stream σ) (required : Bool) : Draw σ String := do
  String.join <$> times (noiseUnit r) (← r.between (if required then 1 else 0) 3)

/-! ### Filling the gaps -/

/-- A piece with its plain filling. -/
def Piece.plainText : Piece → String
  | .token text => text
  | .gap plain _ => plain

/-- A piece with noise. -/
def Piece.noisyText (r : Stream σ) : Piece → Draw σ String
  | .token text => pure text
  | .gap _ required => noise r required

/-- The text of pieces with plain gaps. -/
def plainText (ps : List Piece) : String := String.join (ps.map Piece.plainText)

/-- The text of pieces with noise in the gaps. -/
def noisyText (r : Stream σ) (ps : List Piece) : Draw σ String :=
  String.join <$> forEach (Piece.noisyText r) ps

end MessageIdl.Corpus
