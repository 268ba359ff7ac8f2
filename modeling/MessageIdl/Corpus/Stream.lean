/-!
# Random streams

Sample schemas are drawn from a random stream.  A stream answers two questions, and all other draws
are made of these.  Nothing is assumed about the answers but that they are in range.

* `Stream`: a number below a bound, and a fraction.
* `Draw`: a draw with a result, which may give up.
* `Stream.between`, `Stream.choose`, `Stream.shuffle`, `times`: the draws made of them.
-/

namespace MessageIdl.Corpus

/-- The number of different fractions that can be drawn. -/
def fractions : Nat := 1 <<< 53

/-- A random stream with states `σ`.  `below n` is a number smaller than `n`, or nothing if the stream
gives up; `fraction` is the numerator of a fraction with the denominator `fractions`.  Draws that are
refused are repeated at most `patience` times. -/
structure Stream (σ : Type) where
  below : Nat → σ → Option (Nat × σ)
  fraction : σ → Nat × σ
  patience : Nat
  below_lt : ∀ (n k : Nat) (s s' : σ), below n s = some (k, s') → k < n
  fraction_lt : ∀ s : σ, (fraction s).1 < fractions

/-- A draw with states `σ` and a result. -/
abbrev Draw (σ α : Type) := StateT σ Option α

/-- Gives up. -/
def Draw.none {σ α : Type} : Draw σ α := fun _ => Option.none

/-- The result that an option holds; gives up without one. -/
def Draw.ofOption {σ α : Type} (o : Option α) : Draw σ α := fun s => o.map (·, s)

/-- A draw for a number of times, with all results in order. -/
def times {σ α : Type} (d : Draw σ α) : Nat → Draw σ (List α)
  | 0 => pure []
  | n + 1 => do
      let x ← d
      let xs ← times d n
      pure (x :: xs)

/-- A draw for each member of a list, with all results in order. -/
def forEach {σ α β : Type} (f : α → Draw σ β) : List α → Draw σ (List β)
  | [] => pure []
  | a :: rest => do
      let b ← f a
      let bs ← forEach f rest
      pure (b :: bs)

namespace Stream

variable {σ α : Type}

/-- A number below `n`. -/
def drawBelow (r : Stream σ) (n : Nat) : Draw σ Nat := fun s => r.below n s

/-- A number from `low` to `high`, both included. -/
def between (r : Stream σ) (low high : Nat) : Draw σ Nat :=
  (low + ·) <$> r.drawBelow (high + 1 - low)

/-- A member of a list. -/
def choose (r : Stream σ) (xs : List α) : Draw σ α := do
  Draw.ofOption xs[← r.drawBelow xs.length]?

/-- Whether a fraction is less than `bound / fractions`. -/
def isLess (r : Stream σ) (bound : Nat) : Draw σ Bool := fun s =>
  let (k, s') := r.fraction s
  some (decide (k < bound), s')

/-- A list with two members exchanged; places beyond its end are left alone. -/
def swap (xs : List α) (i j : Nat) : List α :=
  match xs[i]?, xs[j]? with
  | some x, some y => (xs.set i y).set j x
  | _, _ => xs

/-- Exchanges the members at the places `n`, …, 1 in turn with one at or before the place. -/
def shuffleFrom (r : Stream σ) : Nat → List α → Draw σ (List α)
  | 0, xs => pure xs
  | n + 1, xs => do
      let j ← r.drawBelow (n + 2)
      shuffleFrom r n (swap xs (n + 1) j)

/-- The members of a list in a drawn order. -/
def shuffle (r : Stream σ) (xs : List α) : Draw σ (List α) := shuffleFrom r (xs.length - 1) xs

end Stream

end MessageIdl.Corpus
