import MessageIdl.Peg.Watch
import MessageIdl.Source.LineIndex

/-!
# Matching

How an expression is matched at a place of a text.  A run goes through the expression and hands each
reference to a matcher for the rules, so that one definition serves any number of nested rules.

* `Cursor`: an offset and the text that is left there.
* `Outcome`: failed, matched up to a cursor with a value, stopped by a fault, or out of depth.
* `Expr.run`: the outcome of an expression, given a matcher for rules.
* `callRule`: the matcher for rules, with a bound on the number of nested calls.

Every matcher takes the watch on failures along and gives it back, whatever the outcome.
-/

namespace MessageIdl.Peg

open MessageIdl.Source

/-- A place in a text: its offset, and the characters from there on. -/
structure Cursor where
  offset : Nat
  rest : List Char

/-- The cursor behind the next `n` characters. -/
def Cursor.advance (c : Cursor) (n : Nat) : Cursor := ⟨c.offset + n, c.rest.drop n⟩

/-- How a match ends; `exhausted` says that the bound on nested calls was reached. -/
inductive Outcome (α : Type) where
  | failed
  | matched (stop : Cursor) (value : Value α)
  | raised (fault : Fault)
  | exhausted

/-- From a cursor and the failures so far to an outcome and the failures then. -/
abbrev Matcher (α : Type) := Cursor → Watch → Outcome α × Watch

variable {α : Type}

/-- Matches a text literally. -/
def matchLiteral (text : String) : Matcher α := fun c w =>
  if text.toList.isPrefixOf c.rest then (.matched (c.advance text.length) (.text text), w)
  else (.failed, w.note c.offset (literalLabel text))

/-- Matches a pattern; the value is the text it takes. -/
def matchPattern (p : Pattern) : Matcher α := fun c w =>
  match p.scan c.rest with
  | some n => (.matched (c.advance n) (.text (String.ofList (c.rest.take n))), w)
  | none => (.failed, w.note c.offset p.label)

/-- Matches the end of the text. -/
def matchEnd : Matcher α := fun c w =>
  if c.rest.isEmpty then (.matched c .absent, w) else (.failed, w.note c.offset endLabel)

/-- Gives back nothing, without going on, where the matcher fails. -/
def matchOptional (m : Matcher α) : Matcher α := fun c w =>
  match m c w with
  | (.failed, w') => (.matched c .absent, w')
  | other => other

/-- Matches nothing where the matcher fails, and fails where it matches.  Failures of the matcher
itself are not noted. -/
def matchNot (label : String) (m : Matcher α) : Matcher α := fun c w =>
  match m c w.mute with
  | (.failed, w') => (.matched c .absent, w'.unmute)
  | (.matched _ _, w') => (.failed, w'.unmute.note c.offset label)
  | (.raised fault, w') => (.raised fault, w'.unmute)
  | (.exhausted, w') => (.exhausted, w'.unmute)

/-- Runs an action on the values of a match. -/
def matchAction (lines : LineIndex) (act : Action α) (m : Matcher α) : Matcher α := fun c w =>
  match m c w with
  | (.matched stop value, w') =>
      match act.build value.spread (lines.span c.offset stop.offset) with
      | .ok built => (.matched stop built, w')
      | .error fault => (.raised fault, w')
  | other => other

/-- The end of a repetition: the values, latest first, are given back if there are enough. -/
def finishRepeat (least : Int) (values : List (Value α)) (c : Cursor) (w : Watch) :
    Outcome α × Watch :=
  if (values.length : Int) < least then (.failed, w) else (.matched c (.list values.reverse), w)

/-- Matches again and again, until the matcher fails or takes nothing.  Each further round uses up a
character of `text`; that is enough if `text` is what is left at the cursor, because a match that
takes something takes at least one character. -/
def repeatFrom (least : Int) (m : Matcher α) : List Char → List (Value α) → Matcher α
  | text, values, c, w =>
      match m c w with
      | (.failed, w') => finishRepeat least values c w'
      | (.matched stop value, w') =>
          match text with
          | [] => finishRepeat least (value :: values) stop w'
          | _ :: text =>
              if stop.offset = c.offset then finishRepeat least (value :: values) stop w'
              else repeatFrom least m text (value :: values) stop w'
      | other => other

/-- Matches as often as possible, and fails after fewer than `least` matches. -/
def matchRepeat (least : Int) (m : Matcher α) : Matcher α := fun c w =>
  repeatFrom least m c.rest [] c w

namespace Expr

mutual

/-- The outcome of an expression; `call` matches the rules that it refers to. -/
def run (call : String → Matcher α) (lines : LineIndex) : Expr α → Matcher α
  | .literal text => matchLiteral text
  | .pattern p => matchPattern p
  | .seq items => runSeq call lines items []
  | .choice alternatives => runChoice call lines alternatives
  | .repeated least body => matchRepeat least (run call lines body)
  | .optional body => matchOptional (run call lines body)
  | .not body => matchNot ("not " ++ body.display) (run call lines body)
  | .ref name => call name
  | .action act body => matchAction lines act (run call lines body)
  | .endOfInput => matchEnd
  | .hole => fun _ w => (.raised .hole, w)

/-- Matches the items one after the other; `values` are those of the items before, latest first. -/
def runSeq (call : String → Matcher α) (lines : LineIndex) :
    List (Expr α) → List (Value α) → Matcher α
  | [], values => fun c w => (.matched c (.list values.reverse), w)
  | item :: items, values => fun c w =>
      match run call lines item c w with
      | (.matched stop value, w') => runSeq call lines items (value :: values) stop w'
      | other => other

/-- The outcome of the first alternative that does not fail. -/
def runChoice (call : String → Matcher α) (lines : LineIndex) : List (Expr α) → Matcher α
  | [] => fun _ w => (.failed, w)
  | alternative :: alternatives => fun c w =>
      match run call lines alternative c w with
      | (.failed, w') => runChoice call lines alternatives c w'
      | other => other

end

end Expr

/-- Matches the rule of a name, with at most `depth` nested calls of rules. -/
def callRule (find : String → Option (Expr α)) (lines : LineIndex) : Nat → String → Matcher α
  | 0, _ => fun _ w => (.exhausted, w)
  | depth + 1, name =>
      match find name with
      | none => fun _ w => (.raised (.undefinedRule name), w)
      | some body => body.run (callRule find lines depth) lines

end MessageIdl.Peg
