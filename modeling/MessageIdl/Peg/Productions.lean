import MessageIdl.Peg.Grammar
import MessageIdl.Peg.Phrase

/-!
# Productions

Productions are collected under their heads, each with the alternatives in the order in which they
were written, and make up a grammar.

* `Productions.define`: one more production; one that makes no sense changes nothing.
* `Productions.grammar`: the grammar of the productions so far.
-/

namespace MessageIdl.Peg

variable {α : Type}

/-- The body of an alternative: its symbols in a row, and the action on their values. -/
def boundBody (act : Action α) (items : List (Expr α)) : Expr α := .action act (.seq items)

/-- The body of a rule: its only alternative, or the choice between all of them. -/
def ruleBody : List (Expr α) → Expr α
  | [only] => only
  | alternatives => .choice alternatives

/-- Heads in the order of their first productions, each with its alternatives. -/
structure Productions (α : Type) where
  heads : List (String × List (Expr α)) := []

namespace Productions

/-- Puts an alternative behind those of its head, or behind all heads if the head is new. -/
def addTo (name : String) (body : Expr α) :
    List (String × List (Expr α)) → List (String × List (Expr α))
  | [] => [(name, [body])]
  | (head, bodies) :: rest =>
      if head = name then (head, bodies ++ [body]) :: rest
      else (head, bodies) :: addTo name body rest

/-- One more alternative of a head. -/
def add (ps : Productions α) (name : String) (body : Expr α) : Productions α :=
  { heads := addTo name body ps.heads }

/-- The alternatives of a head. -/
def alternatives (ps : Productions α) (name : String) : List (Expr α) :=
  match ps.heads.find? (·.1 == name) with
  | none => []
  | some (_, bodies) => bodies

/-- The bodies that a right-hand side stands for; only phrases with an action stand for any. -/
def bodies : Phrase α → Except PhraseError (List (Expr α))
  | .bound items act => .ok [boundBody act items]
  | .boundAlternatives bodies act => .ok (bodies.map (boundBody act))
  | .sequence _ => .error .missingAction
  | .alternatives _ => .error .missingActionOnAlternatives
  | _ => .error .notAProduction

/-- One more production.  The right-hand side is looked at before the head. -/
def define (ps : Productions α) (head : Expr α) (right : Phrase α) :
    Except PhraseError (Productions α) :=
  match bodies right, head with
  | .error e, _ => .error e
  | .ok new, .ref name => .ok (new.foldl (·.add name ·) ps)
  | .ok _, _ => .error .headNotARule

/-- The grammar of the productions, with one rule for each head. -/
def grammar (ps : Productions α) (start : Expr α) : Except PhraseError (Grammar α) :=
  match start with
  | .ref name =>
      .ok { start := name, rules := ps.heads.map fun h => { name := h.1, body := ruleBody h.2 } }
  | _ => .error .startNotARule

end Productions

end MessageIdl.Peg
