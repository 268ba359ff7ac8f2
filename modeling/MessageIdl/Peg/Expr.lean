import MessageIdl.Peg.Pattern
import MessageIdl.Peg.Value

/-!
# Parsing expressions

The expressions of a grammar, how they are written, and the rules that they refer to.

* `Expr`: the expressions; a choice is ordered and a repetition greedy.
* `Expr.display`: the written form.
* `Expr.refs`: the names of the rules that an expression refers to, at any depth.
-/

namespace MessageIdl.Peg

/-- A parsing expression.  `repeated least body` is at least `least` times `body`, `hole` stands
where an expression was left out. -/
inductive Expr (α : Type) where
  | literal (text : String)
  | pattern (p : Pattern)
  | seq (items : List (Expr α))
  | choice (alternatives : List (Expr α))
  | repeated (least : Int) (body : Expr α)
  | optional (body : Expr α)
  | not (body : Expr α)
  | ref (name : String)
  | action (act : Action α) (body : Expr α)
  | endOfInput
  | hole

/-- How the end of the input is named as something expected or found. -/
def endLabel : String := "end of input"

/-- How a literal is named as something expected. -/
def literalLabel (text : String) : String := "\"" ++ text ++ "\""

namespace Expr

variable {α : Type}

/-- Whether an expression is put between brackets inside another one. -/
def isCompound : Expr α → Bool
  | .seq _ => true
  | .choice _ => true
  | .action _ _ => true
  | _ => false

/-- The written form of an expression as a part of another one. -/
def bracket (e : Expr α) (shown : String) : String :=
  if e.isCompound then "(" ++ shown ++ ")" else shown

mutual

/-- The written form of an expression. -/
def display : Expr α → String
  | .literal text => literalLabel text
  | .pattern p => "<" ++ p.label ++ ">"
  | .seq items => if items.isEmpty then "ε" else " ".intercalate (displayParts items)
  | .choice alternatives => " / ".intercalate (displayParts alternatives)
  | .repeated least body => bracket body (display body) ++ (if least = 0 then "*" else "+")
  | .optional body => bracket body (display body) ++ "?"
  | .not body => "!" ++ bracket body (display body)
  | .ref name => name
  | .action act body => display body ++ " \x7b" ++ act.name ++ "\x7d"
  | .endOfInput => "EOF"
  | .hole => "None"

/-- The written forms of the parts of a compound expression. -/
def displayParts : List (Expr α) → List String
  | [] => []
  | e :: rest => bracket e (display e) :: displayParts rest

end

mutual

/-- The names of the rules that an expression refers to, in order of appearance. -/
def refs : Expr α → List String
  | .seq items => refsOfParts items
  | .choice alternatives => refsOfParts alternatives
  | .repeated _ body => refs body
  | .optional body => refs body
  | .not body => refs body
  | .ref name => [name]
  | .action _ body => refs body
  | _ => []

/-- The names that the parts of a compound expression refer to. -/
def refsOfParts : List (Expr α) → List String
  | [] => []
  | e :: rest => refs e ++ refsOfParts rest

end

end Expr

end MessageIdl.Peg
