import MessageIdl.Peg.Watch
import MessageIdl.Source.LineIndex
import MessageIdl.Text.Quoted

/-!
# Parse errors

What is told about a text that a grammar does not accept.

* `ParseError`: the place, the wording, the things expected there and a hint.
* `describeFound`: how the character at the place is named.
* `Watch.explain`: the error that the furthest failure stands for.
-/

namespace MessageIdl.Peg

open MessageIdl.Source

/-- Why and where a text was refused. -/
structure ParseError where
  span : Span
  text : String
  expected : List String := []
  hint : Option String := none
deriving DecidableEq

/-- The place and the wording, with the hint on a line of its own. -/
def ParseError.message (e : ParseError) : String :=
  let base := e.span.display ++ ": " ++ e.text
  match e.hint with
  | none => base
  | some hint => if hint.isEmpty then base else base ++ "\nhint: " ++ hint

/-- A visible character is shown in quotes, any other one by its code point. -/
def describeChar (c : Char) : String :=
  if Text.isPrintable c ∧ c ≠ ' ' then Text.quoted (String.singleton c)
  else "U+" ++ String.ofList (Text.upperHex 4 c.toNat)

/-- How what stands at the front of a text is named. -/
def describeFound : List Char → String
  | [] => endLabel
  | c :: _ => describeChar c

/-- Labels as an enumeration: commas, and "or" before the last one. -/
def enumerate : List String → String
  | [] => ""
  | [only] => only
  | labels => ", ".intercalate labels.dropLast ++ " or " ++ labels.getLastD ""

/-- The label of the end of a block comment. -/
def commentCloseLabel : String := literalLabel "*/"

/-- The error that the failures noted in `w` stand for.  A comment that is still open at the end of
the text has a wording of its own. -/
def Watch.explain (w : Watch) (lines : LineIndex) (text : List Char) : ParseError :=
  let offset := w.furthest
  let span := lines.span offset (min (offset + 1) lines.size : Nat)
  if w.expected.contains commentCloseLabel ∧ lines.size ≤ offset then
    { span, text := "unterminated block comment", expected := w.expected,
      hint := some "add closing */" }
  else
    { span, text := "unexpected " ++ describeFound (text.drop offset), expected := w.expected,
      hint := if w.expected.isEmpty then none else some ("expected " ++ enumerate w.expected) }

end MessageIdl.Peg
