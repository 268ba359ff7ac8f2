import MessageIdl.Corpus.Stream
import MessageIdl.Schema.Basic
import MessageIdl.Text.Lowercase

/-!
# Names for samples

Names in one file must differ in more than case and underscores, and must not be words with a meaning
of their own.

* `fold`: what is left of a name without case and underscores.
* `NamePool`: the folded names that are taken.
* `fresh`: draws a new name; `NamePool.claim`: makes a given name new by adding to it.
-/

namespace MessageIdl.Corpus

open MessageIdl.Schema

/-- A name without underscores and in lower case. -/
def fold (name : String) : String :=
  String.ofList (Text.lower (name.toList.filter (· ≠ '_')))

/-- The words that no generated name may be. -/
def reserved : List String :=
  ["syntax", "edition", "import", "package", "option", "message", "enum", "service", "rpc",
    "returns", "stream", "oneof", "map", "repeated", "optional", "required", "reserved", "extend",
    "extensions", "group", "to", "max", "weak", "public", "true", "false", "inf", "nan"]
    ++ Scalar.all.map Scalar.keyword

/-- The capital letters of ASCII. -/
def capitals : List Char := "ABCDEFGHIJKLMNOPQRSTUVWXYZ".toList

/-- The small letters of ASCII. -/
def smallLetters : List Char := "abcdefghijklmnopqrstuvwxyz".toList

/-- The digits of ASCII. -/
def digits : List Char := "0123456789".toList

/-- The letters and digits of ASCII. -/
def alphanumerics : List Char := smallLetters ++ capitals ++ digits

/-- The two kinds of generated names. -/
inductive NameKind where
  | type
  | field
deriving DecidableEq

/-- The characters that a name can begin with. -/
def NameKind.heads : NameKind → List Char
  | .type => capitals
  | .field => smallLetters

/-- The characters that a name can go on with. -/
def NameKind.tails : NameKind → List Char
  | .type => alphanumerics
  | .field => alphanumerics ++ ['_']

/-- The folded names that are taken. -/
structure NamePool where
  taken : List String := []

/-- Whether a name may be handed out at all. -/
def isUsable (name : String) : Bool :=
  name.toList.getLast? ≠ some '_' && !reserved.contains name

variable {σ : Type}

/-- A name of a kind, which may be taken already. -/
def anyName (r : Stream σ) (kind : NameKind) : Draw σ String := do
  let head ← r.choose kind.heads
  let tail ← times (r.choose kind.tails) (← r.between 0 10)
  pure (String.ofList (head :: tail))

/-- A usable name whose folded form is in none of the given lists, within a number of rounds. -/
def freshWithin (r : Stream σ) (kind : NameKind) (avoid : List String) : Nat → Draw σ String
  | 0 => Draw.none
  | rounds + 1 => do
      let name ← anyName r kind
      if !isUsable name || avoid.contains (fold name) then freshWithin r kind avoid rounds
      else pure name

namespace NamePool

/-- The pool with one more name taken. -/
def take (p : NamePool) (name : String) : NamePool := { taken := fold name :: p.taken }

/-- A new name for the whole file. -/
def fresh (r : Stream σ) (kind : NameKind) (p : NamePool) : Draw σ (String × NamePool) := do
  let name ← freshWithin r kind p.taken r.patience
  pure (name, p.take name)

/-- A new name for one scope of the file, whose own names are the pool `scope`.  It is taken in the
scope only. -/
def freshIn (r : Stream σ) (kind : NameKind) (p scope : NamePool) :
    Draw σ (String × NamePool) := do
  let name ← freshWithin r kind (p.taken ++ scope.taken) r.patience
  pure (name, scope.take name)

/-- A name with as many `_X` behind it as make it new, but at most `rounds`. -/
def lengthen (p : NamePool) : Nat → String → String
  | 0, name => name
  | rounds + 1, name =>
      if p.taken.contains (fold name) then lengthen p rounds (name ++ "_X") else name

/-- A given name made new, and the pool in which it is taken.  Every round makes the folded name
longer, so there are no more rounds than names taken. -/
def claim (p : NamePool) (name : String) : String × NamePool :=
  let new := p.lengthen p.taken.length name
  (new, p.take new)

/-- A new name for the whole file for each of a number of declarations. -/
def freshTypes (r : Stream σ) : Nat → NamePool → Draw σ (List String × NamePool)
  | 0, p => pure ([], p)
  | n + 1, p => do
      let (name, p) ← p.fresh r .type
      let (names, p) ← freshTypes r n p
      pure (name :: names, p)

/-- Several given names made new in turn. -/
def claimAll (p : NamePool) : List String → List String × NamePool
  | [] => ([], p)
  | name :: rest =>
      let (new, p) := p.claim name
      let (news, p) := claimAll p rest
      (new :: news, p)

end NamePool

end MessageIdl.Corpus
