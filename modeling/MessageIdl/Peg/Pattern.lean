/-!
# Patterns

A pattern is a labelled scanner: it looks at the start of a text and says how many characters of it
it takes, or that it does not match there.

* `Pattern`: a label and a scanner that never takes more characters than there are.
* `Pattern.run`: as many characters of a class as possible, with a least and a greatest number.
* `Pattern.all`: all of the text.
-/

namespace MessageIdl.Peg

/-- A labelled scanner; `scan s` is the number of characters taken from the start of `s`. -/
structure Pattern where
  label : String
  scan : List Char → Option Nat
  scan_le : ∀ (s : List Char) (n : Nat), scan s = some n → n ≤ s.length

namespace Pattern

/-- How many characters at the start of a text are in a class. -/
def leading (inClass : Char → Bool) (s : List Char) : Nat := (s.takeWhile inClass).length

theorem leading_le (inClass : Char → Bool) (s : List Char) : leading inClass s ≤ s.length :=
  (List.takeWhile_prefix inClass).length_le

/-- The characters of a text that may be taken, when there is a greatest number of them. -/
def front (most : Option Nat) (s : List Char) : List Char := most.elim s s.take

theorem front_length_le (most : Option Nat) (s : List Char) : (front most s).length ≤ s.length := by
  cases most with
  | none => exact Nat.le_refl _
  | some m => exact (List.take_prefix m s).length_le

/-- Takes the longest run of characters of a class, cut to `most` characters if that is given, and
does not match a run shorter than `least`. -/
def run (label : String) (inClass : Char → Bool) (least : Nat) (most : Option Nat) : Pattern where
  label
  scan s :=
    let n := leading inClass (front most s)
    if n < least then none else some n
  scan_le s n h := by
    simp only at h
    split at h
    · simp at h
    · exact Option.some.inj h ▸ Nat.le_trans (leading_le _ _) (front_length_le _ _)

/-- Takes everything that is left. -/
def all (label : String) : Pattern where
  label
  scan s := some s.length
  scan_le s n h := by simp_all

end Pattern

end MessageIdl.Peg
