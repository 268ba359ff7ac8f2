import MessageIdl.Peg.Expr

/-!
# Grammars

Named rules and a start rule.

* `Grammar.rule?`: the first rule of a name; `Grammar.defines`: whether there is one.
* `insertSorted`: sets of names and labels are kept as strictly increasing lists.
* `Grammar.check`: why a grammar cannot be used, if so.
-/

namespace MessageIdl.Peg

/-- Puts a text into a strictly increasing list, unless it is there already. -/
def insertSorted (s : String) : List String → List String
  | [] => [s]
  | t :: rest =>
      if s < t then s :: t :: rest else if s = t then t :: rest else t :: insertSorted s rest

/-- The members of a list as a strictly increasing list. -/
def sortedSet (xs : List String) : List String := xs.foldr insertSorted []

/-- A rule gives a name to an expression. -/
structure Rule (α : Type) where
  name : String
  body : Expr α

/-- The written form of a rule. -/
def Rule.display {α : Type} (r : Rule α) : String := r.name ++ " = " ++ r.body.display

/-- Rules in the order in which they were given, and the name of the start rule. -/
structure Grammar (α : Type) where
  start : String
  rules : List (Rule α)

/-- Why a grammar cannot be used for parsing. -/
inductive GrammarError where
  | undefinedStart (start : String)
  | undefinedRefs (rule : String) (missing : List String)
deriving DecidableEq

/-- The wording of a grammar error. -/
def GrammarError.message : GrammarError → String
  | .undefinedStart start => "start rule is not defined: " ++ start
  | .undefinedRefs rule missing =>
      "rule " ++ rule ++ " references undefined rule(s): " ++ ", ".intercalate missing

namespace Grammar

variable {α : Type}

/-- The first rule of a name. -/
def rule? (g : Grammar α) (name : String) : Option (Rule α) := g.rules.find? (·.name == name)

/-- Whether some rule has the name. -/
def defines (g : Grammar α) (name : String) : Bool := g.rules.any (·.name == name)

/-- The names a rule refers to and that no rule has, in increasing order. -/
def missingRefs (g : Grammar α) (r : Rule α) : List String :=
  sortedSet (r.body.refs.filter fun name => !g.defines name)

/-- The start rule is looked for first, then the references of each rule in turn, also of rules that
a later one of the same name replaces. -/
def check (g : Grammar α) : Except GrammarError Unit :=
  if g.defines g.start then
    match g.rules.find? (fun r => !(g.missingRefs r).isEmpty) with
    | none => .ok ()
    | some r => .error (.undefinedRefs r.name (g.missingRefs r))
  else .error (.undefinedStart g.start)

end Grammar

end MessageIdl.Peg
