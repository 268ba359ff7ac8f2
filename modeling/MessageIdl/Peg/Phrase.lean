import MessageIdl.Peg.Expr

/-!
# Phrases

The right-hand sides of productions are put together from symbols with "and", "or" and "bind to an
action".  Only some combinations make sense.

* `Phrase`: what can be put together.
* `Phrase.and`, `Phrase.or`, `Phrase.bind`: the three ways of combining.
* `Phrase.many`, `Phrase.many1`, `Phrase.opt`, `Phrase.notAhead`: new symbols from a symbol.
* `PhraseError`: why a combination or a production makes no sense.

An action binds to the last phrase before it, so that "and" and "or" with a bound phrase on the
right extend what is bound.
-/

namespace MessageIdl.Peg

/-- A right-hand side in the making: a symbol, a reference to a rule, a sequence of symbols, a
sequence bound to an action, alternatives, and alternatives bound to an action. -/
inductive Phrase (α : Type) where
  | symbol (e : Expr α)
  | rule (name : String)
  | sequence (items : List (Expr α))
  | bound (items : List (Expr α)) (act : Action α)
  | alternatives (bodies : List (List (Expr α)))
  | boundAlternatives (bodies : List (List (Expr α))) (act : Action α)

/-- What can go wrong with phrases and productions. -/
inductive PhraseError where
  | unsupported (operator left right : String)
  | notASymbol (kind : String)
  | andAfterAction
  | missingAction
  | missingActionOnAlternatives
  | notAProduction
  | headNotARule
  | startNotARule
deriving DecidableEq

/-- The wording of a phrase error. -/
def PhraseError.message : PhraseError → String
  | .unsupported operator left right =>
      "unsupported operand type(s) for " ++ operator ++ ": '" ++ left ++ "' and '" ++ right ++ "'"
  | .notASymbol kind => "'" ++ kind ++ "' object has no attribute 'sym'"
  | .andAfterAction => "cannot use & after @ action; put @ action at the end"
  | .missingAction => "production missing action: use `rhs @ action`"
  | .missingActionOnAlternatives => "alternation missing action: use `(a | b | c) @ action`"
  | .notAProduction => "production must be `rhs @ action`"
  | .headNotARule => "head must be a rule reference"
  | .startNotARule => "start must be a rule"

namespace Phrase

variable {α : Type}

/-- The kind of a phrase, as error messages name it. -/
def kind : Phrase α → String
  | .symbol _ => "Sym"
  | .rule _ => "RuleNt"
  | .sequence _ => "Rhs"
  | .bound _ _ => "Bound"
  | .alternatives _ => "Alts"
  | .boundAlternatives _ _ => "BoundAlts"

/-- The expression of a phrase that is a single symbol. -/
def symbol? : Phrase α → Option (Expr α)
  | .symbol e => some e
  | .rule name => some (.ref name)
  | _ => none

/-- One phrase after another.  A bound phrase on the right binds the whole sequence. -/
def and (left right : Phrase α) : Except PhraseError (Phrase α) :=
  let join (items : List (Expr α)) : Except PhraseError (Phrase α) :=
    match right, right.symbol? with
    | .bound more act, _ => .ok (.bound (items ++ more) act)
    | _, some e => .ok (.sequence (items ++ [e]))
    | _, none => .error (.unsupported "&" left.kind right.kind)
  match left with
  | .symbol e => join [e]
  | .rule name => join [.ref name]
  | .sequence items => join items
  | .bound _ _ => .error .andAfterAction
  | _ => .error (.unsupported "&" left.kind right.kind)

/-- One phrase or another.  A bound phrase on the right binds all alternatives. -/
def or (left right : Phrase α) : Except PhraseError (Phrase α) :=
  let join (bodies : List (List (Expr α))) : Except PhraseError (Phrase α) :=
    match right, right.symbol? with
    | .bound more act, _ => .ok (.boundAlternatives (bodies ++ [more]) act)
    | _, some e => .ok (.alternatives (bodies ++ [[e]]))
    | _, none => .error (.unsupported "|" left.kind right.kind)
  match left with
  | .symbol e => join [[e]]
  | .rule name => join [[.ref name]]
  | .alternatives bodies => join bodies
  | _ => .error (.unsupported "|" left.kind right.kind)

/-- A phrase with an action. -/
def bind (act : Action α) : Phrase α → Except PhraseError (Phrase α)
  | .symbol e => .ok (.bound [e] act)
  | .rule name => .ok (.bound [.ref name] act)
  | .sequence items => .ok (.bound items act)
  | .alternatives bodies => .ok (.boundAlternatives bodies act)
  | p => .error (.unsupported "@" p.kind "function")

/-- A new symbol from the expression of a symbol. -/
def mapSymbol (f : Expr α → Expr α) (p : Phrase α) : Except PhraseError (Phrase α) :=
  match p.symbol? with
  | some e => .ok (.symbol (f e))
  | none => .error (.notASymbol p.kind)

/-- A symbol any number of times. -/
def many : Phrase α → Except PhraseError (Phrase α) := mapSymbol (.repeated 0)

/-- A symbol at least once. -/
def many1 : Phrase α → Except PhraseError (Phrase α) := mapSymbol (.repeated 1)

/-- A symbol or nothing. -/
def opt : Phrase α → Except PhraseError (Phrase α) := mapSymbol .optional

/-- The absence of a symbol. -/
def notAhead : Phrase α → Except PhraseError (Phrase α) := mapSymbol .not

/-- The end of the input. -/
def endOfInput : Phrase α := .symbol .endOfInput

end Phrase

end MessageIdl.Peg
