import MessageIdl.Corpus.Names

/-!
# Sketches of sample files

A sketch says what a sample file declares: names, types and numbers, but not how it is laid out.

* `FieldSketch`, `EnumSketch`, `DeclarationSketch`: the declarations.
* `sketchFile`: draws a file.
-/

namespace MessageIdl.Corpus

open MessageIdl.Schema

/-- A field with its number. -/
structure FieldSketch where
  number : Nat
  type : String
  name : String
  repeated : Bool

/-- An enumeration; its values are numbered from 0. -/
structure EnumSketch where
  name : String
  values : List String

/-- What stands in a message. -/
inductive MemberSketch where
  | field (f : FieldSketch)
  | enumeration (e : EnumSketch)

/-- What stands at the top level of a file. -/
inductive DeclarationSketch where
  | message (name : String) (members : List MemberSketch)
  | enumeration (e : EnumSketch)

/-- The kinds of declarations. -/
inductive DeclarationKind where
  | message
  | enumeration
deriving DecidableEq

/-- The kinds of members of a message. -/
inductive MemberKind where
  | field
  | enumeration
deriving DecidableEq

/-- Seven tenths, as the fraction nearest to it. -/
def sevenTenths : Nat := 6305039478318694

/-- One half. -/
def oneHalf : Nat := 1 <<< 52

/-- One quarter. -/
def oneQuarter : Nat := 1 <<< 51

variable {σ : Type}

/-- The values of an enumeration: its name in capitals, and a number. -/
def sketchValues (r : Stream σ) (name : String) (pool : NamePool) :
    Draw σ (List String × NamePool) := do
  let count ← r.between 1 6
  let wished := (List.range count).map fun k =>
    String.ofList (name.toList.map Char.toUpper) ++ "_" ++ toString k
  pure (pool.claimAll wished)

/-- The enumerations of given names. -/
def sketchEnums (r : Stream σ) : List String → NamePool → Draw σ (List EnumSketch × NamePool)
  | [], pool => pure ([], pool)
  | name :: rest, pool => do
      let (values, pool) ← sketchValues r name pool
      let (enums, pool) ← sketchEnums r rest pool
      pure ({ name, values } :: enums, pool)

/-- The type of a field: mostly a built-in one, else one of the names that it can refer to. -/
def sketchType (r : Stream σ) (names : List String) : Draw σ String := do
  let builtIn ← r.isLess sevenTenths
  if builtIn || names.isEmpty then Scalar.keyword <$> r.choose Scalar.all else r.choose names

/-- A field with a number greater than `last`. -/
def sketchField (r : Stream σ) (names : List String) (last : Nat) (pool scope : NamePool) :
    Draw σ (FieldSketch × NamePool) := do
  let number := last + (← r.between 1 3)
  let type ← sketchType r names
  let (name, scope) ← pool.freshIn r .field scope
  let repeated ← r.isLess oneQuarter
  pure ({ number, type, name, repeated }, scope)

/-- The members of a message in a given order of kinds; `enums` are those not yet placed. -/
def sketchMembers (r : Stream σ) (names : List String) (pool : NamePool) :
    List MemberKind → List EnumSketch → Nat → NamePool → Draw σ (List MemberSketch)
  | [], _, _, _ => pure []
  | .enumeration :: kinds, enums, last, scope =>
      match enums with
      | [] => Draw.none
      | e :: enums => (.enumeration e :: ·) <$> sketchMembers r names pool kinds enums last scope
  | .field :: kinds, enums, last, scope => do
      let (f, scope) ← sketchField r names last pool scope
      (.field f :: ·) <$> sketchMembers r names pool kinds enums f.number scope

/-- The members of a message; `declared` are the names at the top level of the file.  Values of
enumerations share their scope with fields, so they are named before any field. -/
def sketchMessage (r : Stream σ) (declared : List String) (pool : NamePool) :
    Draw σ (List MemberSketch × NamePool) := do
  let (nested, pool) ← NamePool.freshTypes r (← r.choose [0, 0, 0, 1, 2]) pool
  let (enums, pool) ← sketchEnums r nested pool
  let fieldCount ← r.between 0 8
  let kinds ← r.shuffle
    (List.replicate fieldCount .field ++ List.replicate nested.length .enumeration)
  let members ← sketchMembers r (declared ++ nested) pool kinds enums 0 {}
  pure (members, pool)

/-- The declarations of given kinds and names. -/
def sketchDeclarations (r : Stream σ) (declared : List String) :
    List (DeclarationKind × String) → NamePool → Draw σ (List DeclarationSketch)
  | [], _ => pure []
  | (.enumeration, name) :: rest, pool => do
      let (values, pool) ← sketchValues r name pool
      (.enumeration { name, values } :: ·) <$> sketchDeclarations r declared rest pool
  | (.message, name) :: rest, pool => do
      let (members, pool) ← sketchMessage r declared pool
      (.message name members :: ·) <$> sketchDeclarations r declared rest pool

/-- The kind of a declaration: mostly a message. -/
def sketchKind (r : Stream σ) : Draw σ DeclarationKind := do
  pure (if ← r.isLess sevenTenths then .message else .enumeration)

/-- The declarations of a file. -/
def sketchFile (r : Stream σ) : Draw σ (List DeclarationSketch) := do
  let kinds ← times (sketchKind r) (← r.between 1 4)
  let (names, pool) ← NamePool.freshTypes r kinds.length {}
  sketchDeclarations r names (kinds.zip names) pool

end MessageIdl.Corpus
