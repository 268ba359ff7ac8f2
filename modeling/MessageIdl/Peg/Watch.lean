import MessageIdl.Peg.Grammar

/-!
# The furthest failure

While a text is matched, failures are noted: only those at the greatest offset so far are kept, and
none while a negative lookahead is tried.

* `Watch`: the greatest offset of a noted failure, what was expected there, and how many lookaheads
  are being tried.
* `Watch.note`: notes one failure.
* `Watch.mute`, `Watch.unmute`: enter and leave a lookahead.
-/

namespace MessageIdl.Peg

/-- The failures worth reporting so far; `expected` is strictly increasing. -/
structure Watch where
  furthest : Nat := 0
  expected : List String := []
  muted : Nat := 0
deriving DecidableEq

namespace Watch

/-- Notes that `label` was expected at `offset`: a failure further on replaces the ones before it,
one at the same offset joins them, and inside a lookahead nothing is noted. -/
def note (w : Watch) (offset : Nat) (label : String) : Watch :=
  if w.muted ≠ 0 then w
  else if w.furthest < offset then { w with furthest := offset, expected := [label] }
  else if w.furthest = offset then { w with expected := insertSorted label w.expected }
  else w

/-- One more lookahead is being tried. -/
def mute (w : Watch) : Watch := { w with muted := w.muted + 1 }

/-- The innermost lookahead is over. -/
def unmute (w : Watch) : Watch := { w with muted := w.muted - 1 }

end Watch

end MessageIdl.Peg
