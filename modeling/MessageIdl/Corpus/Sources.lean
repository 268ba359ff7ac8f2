import MessageIdl.Corpus.Layout
import MessageIdl.Corpus.Twister

/-!
# Sample files

A number of sample files, one after the other from the same streams.  What they declare depends on
the first stream only; a second stream fills the gaps, if they are to be noisy.

* `plainSources`, `noisySources`: the texts, from any streams.
* `sources`: the texts for a seed.
* `named`: the texts with the names of their files.
-/

namespace MessageIdl.Corpus

variable {σ τ : Type}

/-- The sketches of a number of files. -/
def sketches (r : Stream σ) (count : Nat) : Draw σ (List (List DeclarationSketch)) :=
  times (sketchFile r) count

/-- A number of files with plain gaps. -/
def plainSources (r : Stream σ) (count : Nat) (start : σ) : Option (List String) := do
  let (all, _) ← sketches r count start
  some (all.map fun sketch => plainText (pieces sketch))

/-- A number of files with noisy gaps. -/
def noisySources (r : Stream σ) (filler : Stream τ) (count : Nat) (start : σ) (fillerStart : τ) :
    Option (List String) := do
  let (all, _) ← sketches r count start
  let (texts, _) ← forEach (fun sketch => noisyText filler (pieces sketch)) all fillerStart
  some texts

/-- How far the seed of the noise is from the seed of the declarations. -/
def noiseOffset : Int := 0x5EED

/-- The sample files for a seed; a negative count gives none. -/
def sources (seed count : Int) (noisy : Bool) : Option (List String) :=
  if noisy then
    noisySources Twister.stream Twister.stream count.toNat (.ofSeed seed)
      (.ofSeed (seed + noiseOffset))
  else plainSources Twister.stream count.toNat (.ofSeed seed)

/-- A number with at least six digits. -/
def sixDigits (n : Nat) : String :=
  let shown := toString n
  String.ofList (List.replicate (6 - shown.length) '0') ++ shown

/-- The name of the file at a place. -/
def fileName (i : Nat) : String := "case_" ++ sixDigits i ++ ".proto"

/-- Texts with the names of their files. -/
def named (texts : List String) : List (String × String) :=
  texts.mapIdx fun i text => (fileName i, text)

end MessageIdl.Corpus
