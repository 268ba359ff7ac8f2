import MessageIdl.Source.Position

/-!
# Lines of a text

A `LineIndex` is the sorted table of the offsets at which the lines of a text begin.  It answers in
which line and column an offset lies.

* `LineIndex.ofText`: the table of a text.
* `LineIndex.position`: the position of any offset; offsets outside the text are moved to its ends.
* `LineIndex.span`: the span between two offsets.
-/

namespace MessageIdl.Source

/-- The table of line starts of a text of `size` characters. -/
structure LineIndex where
  file : String
  size : Nat
  starts : Array Nat

/-- The offsets just after each newline of a text whose first character has offset `n`. -/
def lineStartsAfter : Nat → List Char → List Nat
  | _, [] => []
  | n, c :: rest =>
      if c = '\n' then (n + 1) :: lineStartsAfter (n + 1) rest else lineStartsAfter (n + 1) rest

/-- The first index in `lo ..< hi` whose entry is beyond `x`, and `hi` when there is none; on a
sorted table this is the number of entries up to `x`. -/
def upperBound (table : Array Nat) (x : Nat) (lo hi : Nat) (bound : hi ≤ table.size) : Nat :=
  if h : lo < hi then
    let mid := (lo + hi) / 2
    if x < table[mid] then upperBound table x lo mid (by omega)
    else upperBound table x (mid + 1) hi bound
  else lo
termination_by hi - lo

namespace LineIndex

/-- The first line begins at 0 and each newline begins another one after it. -/
def ofText (file : String) (text : List Char) : LineIndex :=
  { file, size := text.length, starts := (0 :: lineStartsAfter 0 text).toArray }

/-- The offset nearest to `offset` that lies in the text or at its end. -/
def clamp (t : LineIndex) (offset : Int) : Nat := min offset.toNat t.size

/-- The line of an offset is the last one that begins at or before it. -/
def position (t : LineIndex) (offset : Int) : Position :=
  let o := t.clamp offset
  let line := upperBound t.starts o 0 t.starts.size (Nat.le_refl _)
  { offset := o, line, column := o - t.starts.getD (line - 1) 0 + 1 }

/-- The span between two offsets, each moved into the text on its own. -/
def span (t : LineIndex) (start stop : Int) : Span :=
  { file := t.file, start := t.position start, stop := t.position stop }

end LineIndex

end MessageIdl.Source
