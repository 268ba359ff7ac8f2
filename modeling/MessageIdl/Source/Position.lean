/-!
# Positions and spans

Where something stands in a text.

* `Position`: an offset, counted from 0, with the line and column that hold it, counted from 1.
* `Span`: the half-open stretch of one file between two positions.
-/

namespace MessageIdl.Source

/-- One place of a text: `offset` counts characters from 0, `line` and `column` count from 1. -/
structure Position where
  offset : Nat
  line : Nat
  column : Nat
deriving DecidableEq

/-- The stretch of `file` that begins at `start` and ends before `stop`. -/
structure Span where
  file : String
  start : Position
  stop : Position
deriving DecidableEq

/-- A span is named by its file and the line and column at which it begins. -/
def Span.display (s : Span) : String :=
  s.file ++ ":" ++ toString s.start.line ++ ":" ++ toString s.start.column

end MessageIdl.Source
