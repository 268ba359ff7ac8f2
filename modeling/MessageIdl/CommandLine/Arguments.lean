import MessageIdl.Text.Integer
import MessageIdl.Text.Quoted

/-!
# Command-line arguments

What the words of a command line mean to a program that takes options and positional arguments.

* `Usage`: the options and arguments of a program, with the texts shown to its users.
* `Word`: what one word is: an option, a plain word, or the separator `--`, after which every word
  is plain.
* `Usage.scan`: what was given, in order, or why the command line is no good.

An option is known by any of its names.  A long name may be cut short as long as it stays the only
one, and may be joined with its value by `=`.  Short options may share one word, and the value of a
short option may follow in the same word.
-/

namespace MessageIdl.CommandLine

/-- An option: the key it is known by, its names, and whether it takes a value. -/
structure OptionSpec (κ : Type) where
  key : κ
  names : List String
  takesValue : Bool := false

/-- The names of an option, as messages show them. -/
def OptionSpec.display {κ : Type} (o : OptionSpec κ) : String := "/".intercalate o.names

/-- What a program takes.  `required` lists what must be given, with the names used in messages, and
`complaint` says what is wrong with a value. -/
structure Usage (κ : Type) where
  program : String
  synopsis : String
  helpText : String
  options : List (OptionSpec κ)
  positionals : List κ
  required : List (κ × String)
  help : κ
  complaint : κ → String → Option String

/-- Why a command line is not carried out: help is asked for, or there is a mistake in it. -/
inductive Interrupt where
  | help
  | mistake (text : String)

/-- An option met in a word: the name that was recognised and the value in the same word. -/
structure Met (κ : Type) where
  option : OptionSpec κ
  name : String
  value : Option (List Char) := none

/-- What one word of a command line is. -/
inductive Word (κ : Type) where
  | separator
  | plain (text : String)
  | option (met : Met κ)
  | unknown (text : String)

/-- What was given for a key; a value is missing where the word for it was a separator. -/
structure Given (κ : Type) where
  key : κ
  value : Option String := none

/-! ### Kinds of words -/

/-- A number with a minus sign, which is no option: digits, or digits after a point.  One line feed
may follow. -/
def isNegativeNumber (word : List Char) : Bool :=
  let isDigit (c : Char) : Bool := (Text.digitValue? c).isSome
  match word with
  | '-' :: rest =>
      let body := if rest.getLast? = some '\n' then rest.dropLast else rest
      let fraction := body.dropWhile isDigit
      match fraction with
      | [] => !body.isEmpty
      | '.' :: digits => !digits.isEmpty && digits.all isDigit
      | _ => false
  | _ => false

namespace Usage

variable {κ : Type}

/-- All names with their options, in order. -/
def names (u : Usage κ) : List (String × OptionSpec κ) :=
  u.options.flatMap fun o => o.names.map fun n => (n, o)

/-- The option of a name. -/
def option? (u : Usage κ) (name : String) : Option (OptionSpec κ) := u.names.lookup name

/-- The name and the value on the two sides of the first `=` in a word. -/
def splitValue (word : List Char) : List Char × Option (List Char) :=
  match word.dropWhile (· ≠ '=') with
  | [] => (word, none)
  | _ :: value => (word.takeWhile (· ≠ '='), some value)

/-- The options that a word can stand for, if it is not the name of one: those whose long names begin
with it, or the short option at its front. -/
def candidates (u : Usage κ) (word : List Char) : List (Met κ) :=
  match word with
  | '-' :: '-' :: _ =>
      let (front, value) := splitValue word
      u.names.filterMap fun (n, o) =>
        if front.isPrefixOf n.toList then some { option := o, name := n, value } else none
  | _ =>
      u.names.filterMap fun (n, o) =>
        if n.toList = word.take 2 then some { option := o, name := n, value := some (word.drop 2) }
        else if word.isPrefixOf n.toList then some { option := o, name := n }
        else none

/-- What a word before any separator is.  Words that do not begin with a minus sign are plain, and
so is a minus sign alone; of the others those are plain that are no known option and that are negative
numbers or hold a blank. -/
def classify (u : Usage κ) (text : String) : Except Interrupt (Word κ) :=
  let word := text.toList
  if word.head? ≠ some '-' then .ok (.plain text)
  else match u.option? text with
    | some o => .ok (.option { option := o, name := text })
    | none =>
        if word.length = 1 then .ok (.plain text)
        else
          let (front, value) := splitValue word
          match value, u.option? (String.ofList front) with
          | some v, some o =>
              .ok (.option { option := o, name := String.ofList front, value := some v })
          | _, _ =>
              match u.candidates word with
              | [met] => .ok (.option met)
              | [] =>
                  if isNegativeNumber word || word.contains ' ' then .ok (.plain text)
                  else .ok (.unknown text)
              | several =>
                  .error (.mistake ("ambiguous option: " ++ text ++ " could match "
                    ++ ", ".intercalate (several.map (·.name))))

/-- What all words are; the first `--` is the separator. -/
def words (u : Usage κ) : List String → Except Interrupt (List (Word κ))
  | [] => .ok []
  | text :: rest =>
      if text = "--" then .ok (.separator :: rest.map .plain)
      else do
        let w ← u.classify text
        let ws ← u.words rest
        .ok (w :: ws)

/-! ### Options in one word -/

/-- The wording of a mistake about an option. -/
def about (o : OptionSpec κ) (text : String) : Interrupt :=
  .mistake ("argument " ++ o.display ++ ": " ++ text)

/-- The mistake of a value for an option that takes none. -/
def needless (o : OptionSpec κ) (value : List Char) : Interrupt :=
  about o ("ignored explicit argument " ++ Text.quoted (String.ofList value))

/-- The options in the rest of a word of short options, each with its value if it has one there. -/
def cluster (u : Usage κ) (o : OptionSpec κ) :
    List Char → Except Interrupt (List (OptionSpec κ × Option String))
  | [] => .ok [(o, none)]
  | c :: rest =>
      if o.takesValue then .ok [(o, some (String.ofList (c :: rest)))]
      else match u.option? (String.ofList ['-', c]) with
        | none => .error (needless o (c :: rest))
        | some next => ((o, none) :: ·) <$> u.cluster next rest

/-- Whether a name is a minus sign and one more character or several, but not two minus signs. -/
def isShort (name : String) : Bool := name.toList[1]? ≠ some '-'

/-- The options in one word, each with its value if it has one there. -/
def unfold (u : Usage κ) (m : Met κ) : Except Interrupt (List (OptionSpec κ × Option String)) :=
  match m.value with
  | none => .ok [(m.option, none)]
  | some [] => if m.option.takesValue then .ok [(m.option, some "")] else .error (needless m.option [])
  | some value =>
      if m.option.takesValue then .ok [(m.option, some (String.ofList value))]
      else if isShort m.name then u.cluster m.option value
      else .error (needless m.option value)

/-! ### The whole command line -/

/-- What has been read of a command line, latest first, and which positional arguments are still to
come. -/
structure Progress (κ : Type) where
  toCome : List κ
  given : List (Given κ) := []
  leftOver : List String := []

/-- Takes note of an option with its value.  A value `--` counts as missing. -/
def takeOption (u : Usage κ) [DecidableEq κ] (o : OptionSpec κ) (value : Option String)
    (p : Progress κ) : Except Interrupt (Progress κ) :=
  if o.key = u.help then .error .help
  else
    let value := if value = some "--" then none else value
    match value.bind (u.complaint o.key) with
    | some text => .error (about o text)
    | none => .ok { p with given := ⟨o.key, value⟩ :: p.given }

/-- Takes note of several options in turn. -/
def takeOptions (u : Usage κ) [DecidableEq κ] :
    List (OptionSpec κ × Option String) → Progress κ → Except Interrupt (Progress κ)
  | [], p => .ok p
  | (o, value) :: rest, p => do u.takeOptions rest (← u.takeOption o value p)

/-- Takes note of a plain word: it is the next positional argument, or left over. -/
def takePlain (text : String) (value : Option String) (p : Progress κ) : Progress κ :=
  match p.toCome with
  | key :: rest => { p with toCome := rest, given := ⟨key, value⟩ :: p.given }
  | [] => { p with leftOver := text :: p.leftOver }

/-- Whether the last option of a word waits for a value in the next word. -/
def waits (met : List (OptionSpec κ × Option String)) : Option (OptionSpec κ) :=
  match met.getLast? with
  | some (o, none) => if o.takesValue then some o else none
  | _ => none

/-- Reads the words in turn.  A separator belongs to the positional argument next to it. -/
def read (u : Usage κ) [DecidableEq κ] : List (Word κ) → Progress κ → Except Interrupt (Progress κ)
  | [], p => .ok p
  | .separator :: .plain text :: rest, p =>
      match p.toCome with
      | [] => u.read rest { p with leftOver := text :: "--" :: p.leftOver }
      | _ => u.read rest (takePlain text (some text) p)
  | .separator :: rest, p => u.read rest { p with leftOver := "--" :: p.leftOver }
  | .plain text :: .separator :: rest, p =>
      match p.toCome with
      | [] => u.read rest { p with leftOver := "--" :: text :: p.leftOver }
      | _ => u.read rest (takePlain text (some text) p)
  | .plain text :: rest, p =>
      u.read rest (takePlain text (if text = "--" then none else some text) p)
  | .unknown text :: rest, p => u.read rest { p with leftOver := text :: p.leftOver }
  | .option met :: rest, p => do
      let found ← u.unfold met
      match waits found with
      | none => u.read rest (← u.takeOptions found p)
      | some o =>
          match rest with
          | .plain text :: more =>
              u.read more (← u.takeOptions (found.dropLast ++ [(o, some text)]) p)
          | _ => .error (about o "expected one argument")

/-- What was given, in order.  Missing arguments count before words that nothing takes. -/
def scan (u : Usage κ) [DecidableEq κ] (arguments : List String) :
    Except Interrupt (List (Given κ)) := do
  let p ← u.read (← u.words arguments) { toCome := u.positionals }
  match u.required.filter fun r => !p.given.any (·.key = r.1) with
  | [] =>
      if p.leftOver.isEmpty then .ok p.given.reverse
      else .error (.mistake ("unrecognized arguments: " ++ " ".intercalate p.leftOver.reverse))
  | missing =>
      .error (.mistake ("the following arguments are required: "
        ++ ", ".intercalate (missing.map (·.2))))

end Usage

/-- The last thing given for a key. -/
def last? {κ : Type} [DecidableEq κ] (given : List (Given κ)) (key : κ) : Option (Given κ) :=
  given.reverse.find? (·.key = key)

/-- Whether anything was given for a key. -/
def has {κ : Type} [DecidableEq κ] (given : List (Given κ)) (key : κ) : Bool :=
  given.any (·.key = key)

end MessageIdl.CommandLine
