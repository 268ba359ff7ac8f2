import MessageIdl.Peg.ParseError
import MessageIdl.Peg.Run

/-!
# Parsers

A grammar whose references are all defined, ready to be run on texts.

* `Parser.ofGrammar`: the parser of a grammar, or why there is none.
* `Parser.parse`: the value of a whole text, or why there is none.
-/

namespace MessageIdl.Peg

open MessageIdl.Source

variable {α : Type}

/-- A start rule and the rules, the latest first: of two rules of one name the later one counts. -/
structure Parser (α : Type) where
  start : String
  latestFirst : List (Rule α)

/-- Why a parse gives no value: the text is refused, a fault stopped the run, the rules call each
other without end, or there is no usable grammar. -/
inductive Stop where
  | rejected (error : ParseError)
  | raised (fault : Fault)
  | exhausted
  | unusable (error : GrammarError)
deriving DecidableEq

namespace Parser

/-- The parser of a grammar that passes its check. -/
def ofGrammar (g : Grammar α) : Except GrammarError (Parser α) :=
  match g.check with
  | .ok () => .ok { start := g.start, latestFirst := g.rules.reverse }
  | .error e => .error e

/-- The expression that a reference to a name means. -/
def find (p : Parser α) (name : String) : Option (Expr α) :=
  (p.latestFirst.find? (·.name == name)).map (·.body)

/-- How many rules may be under way at a time: a rule that is called at an offset where it is under
way already would never end, so there are at most as many as pairs of a rule and an offset. -/
def depth (p : Parser α) (size : Nat) : Nat := p.latestFirst.length * (size + 1)

/-- The match of the start rule at the front of a text. -/
def matchStart (p : Parser α) (lines : LineIndex) (text : List Char) : Outcome α × Watch :=
  callRule p.find lines (p.depth text.length) p.start ⟨0, text⟩ {}

/-- The value of a text.  A match of the start rule that leaves something over counts as a failure
to find the end of the text. -/
def parse (p : Parser α) (file src : String) : Except Stop (Value α) :=
  let text := src.toList
  let lines := LineIndex.ofText file text
  match p.matchStart lines text with
  | (.matched stop value, w) =>
      if stop.rest.isEmpty then .ok value
      else .error (.rejected ((w.note stop.offset endLabel).explain lines text))
  | (.failed, w) => .error (.rejected (w.explain lines text))
  | (.raised fault, _) => .error (.raised fault)
  | (.exhausted, _) => .error .exhausted

end Parser

end MessageIdl.Peg
