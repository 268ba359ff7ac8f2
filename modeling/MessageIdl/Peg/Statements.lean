import MessageIdl.Peg.Productions

/-!
# Statements

A grammar is written as a sequence of statements, each with a head and a right-hand side.  A statement
that makes no sense is reported, and the ones after it are still carried out.

* `RightSide`: right-hand sides as they are written; `RightSide.eval`: the phrase of one.
* `Productions.append`: alternatives are put behind those of a head one at a time.
* `Statement.perform`: one statement; `Statement.performAll`: one after the other.
-/

namespace MessageIdl.Peg

variable {α : Type}

/-- How a new symbol is made of a symbol. -/
inductive Mark where
  | many
  | many1
  | opt
  | notAhead
deriving DecidableEq

/-- The expression of a marked symbol. -/
def Mark.on : Mark → Expr α → Expr α
  | .many => .repeated 0
  | .many1 => .repeated 1
  | .opt => .optional
  | .notAhead => .not

/-- A mark on a phrase. -/
def Mark.apply : Mark → Phrase α → Except PhraseError (Phrase α)
  | .many => Phrase.many
  | .many1 => Phrase.many1
  | .opt => Phrase.opt
  | .notAhead => Phrase.notAhead

/-- A right-hand side as it is written. -/
inductive RightSide (α : Type) where
  | symbol (e : Expr α)
  | rule (name : String)
  | endOfInput
  | marked (m : Mark) (side : RightSide α)
  | and (left right : RightSide α)
  | or (left right : RightSide α)
  | bind (side : RightSide α) (act : Action α)

/-- The phrase of a right-hand side.  Left operands come before right ones, and operands before what is
made of them. -/
def RightSide.eval : RightSide α → Except PhraseError (Phrase α)
  | .symbol e => .ok (.symbol e)
  | .rule name => .ok (.rule name)
  | .endOfInput => .ok .endOfInput
  | .marked m side => do m.apply (← side.eval)
  | .and left right => do (← left.eval).and (← right.eval)
  | .or left right => do (← left.eval).or (← right.eval)
  | .bind side act => do (← side.eval).bind act

/-- Alternatives for a head, one at a time.  What was put there before a mistake stays. -/
def Productions.append (head : Expr α) :
    List (Expr α) → Productions α → Option PhraseError × Productions α
  | [], ps => (none, ps)
  | body :: more, ps =>
      match head with
      | .ref name => Productions.append head more (ps.add name body)
      | _ => (some .headNotARule, ps)

/-- A statement: alternatives for a head. -/
structure Statement (α : Type) where
  head : Expr α
  right : RightSide α

namespace Statement

/-- The mistake in a statement, if there is one, and the productions after it. -/
def perform (st : Statement α) (ps : Productions α) : Option PhraseError × Productions α :=
  match st.right.eval with
  | .error e => (some e, ps)
  | .ok phrase =>
      match Productions.bodies phrase with
      | .error e => (some e, ps)
      | .ok bodies => ps.append st.head bodies

/-- The productions after statements, whatever mistakes there are in them. -/
def performAll (sts : List (Statement α)) (ps : Productions α) : Productions α :=
  sts.foldl (fun ps st => (st.perform ps).2) ps

end Statement

end MessageIdl.Peg
