import MessageIdl.Peg.Expr
import MessageIdl.Schema.Basic

/-!
# Lexical elements of schemas

Schemas are read character by character; there is no list of tokens.  This module holds the
terminal expressions: names, numbers, keywords, punctuation, and what may stand in the gaps.

* `Lexeme`: the kinds of terminals and the text or label of each.
* `isIdentifier`: the texts that are names.
* `blanks`, `gapUnit`: one blank or one comment.
-/

namespace MessageIdl.Schema

open MessageIdl.Peg

/-- The kinds of terminals. -/
inductive Lexeme where
  | identifier
  | number
  | whitespace
  | commentOpen
  | commentClose
  | openBrace
  | closeBrace
  | equals
  | semicolon
  | message
  | enum
  | repeated
  | endOfInput
deriving DecidableEq

/-- The text of a terminal that has only one, and the label of any other. -/
def Lexeme.text : Lexeme → String
  | .identifier => "identifier"
  | .number => "number"
  | .whitespace => "whitespace"
  | .commentOpen => "/*"
  | .commentClose => "*/"
  | .openBrace => "\x7b"
  | .closeBrace => "\x7d"
  | .equals => "="
  | .semicolon => ";"
  | .message => "message"
  | .enum => "enum"
  | .repeated => "repeated"
  | .endOfInput => endLabel

/-! ### Names and numbers -/

/-- A name begins with an ASCII letter, a dollar sign or an underscore. -/
def isNameStart (c : Char) : Bool := c.isAlpha || c = '$' || c = '_'

/-- A name goes on with such characters and ASCII digits. -/
def isNamePart (c : Char) : Bool := isNameStart c || c.isDigit

/-- How many characters at the start of a text form a name. -/
def scanName : List Char → Option Nat
  | [] => none
  | c :: rest => if isNameStart c then some (Pattern.leading isNamePart rest + 1) else none

/-- The longest name at the start of a text. -/
def namePattern : Pattern where
  label := Lexeme.identifier.text
  scan := scanName
  scan_le s n h := by
    cases s with
    | nil => simp [scanName] at h
    | cons c rest =>
      simp only [scanName] at h
      split at h
      · have := Pattern.leading_le isNamePart rest
        simp only [Option.some.injEq] at h
        simp only [List.length_cons]
        omega
      · simp at h

/-- The longest row of ASCII digits at the start of a text. -/
def numberPattern : Pattern := .run Lexeme.number.text Char.isDigit 1 none

/-- Whether a text is a name from its first to its last character. -/
def isIdentifier (s : String) : Bool :=
  match s.toList with
  | [] => false
  | c :: rest => isNameStart c && rest.all isNamePart

/-- The wording for a text that cannot be a keyword. -/
def keywordMessage (text : String) : String :=
  "keyword must be identifier-shaped: " ++ Text.quoted text

/-- A keyword has the form of a name.  It matches as a plain literal, also at the start of a longer
name. -/
def keyword? {α : Type} (text : String) : Option (Expr α) :=
  if isIdentifier text then some (.literal text) else none

/-! ### Gaps -/

/-- The blanks that may stand between terminals: those of ASCII, the byte order mark and the space
separators of Unicode. -/
def blanks : List Char :=
  ['\t', '\n', '\x0b', '\x0c', '\r', ' ', '\u00a0', '\ufeff', '\u1680', '\u2000', '\u2001',
    '\u2002', '\u2003', '\u2004', '\u2005', '\u2006', '\u2007', '\u2008', '\u2009', '\u200a',
    '\u202f', '\u205f', '\u3000']

/-- One blank. -/
def blankPattern : Pattern := .run Lexeme.whitespace.text blanks.contains 1 (some 1)

/-- How many characters from the start of a text belong to its first line, with the line feed. -/
def lineLength : List Char → Nat
  | [] => 0
  | c :: rest => if c = '\n' then 1 else lineLength rest + 1

theorem lineLength_le (s : List Char) : lineLength s ≤ s.length := by
  induction s with
  | nil => simp [lineLength]
  | cons c rest ih =>
    simp only [lineLength, List.length_cons]
    split <;> omega

/-- The length of a comment that runs to the end of its line. -/
def scanLineComment : List Char → Option Nat
  | '/' :: '/' :: rest => some (lineLength rest + 2)
  | _ => none

/-- Two slashes and the rest of the line. -/
def lineCommentPattern : Pattern where
  label := "comment"
  scan := scanLineComment
  scan_le s n h := by
    unfold scanLineComment at h
    split at h
    · have := lineLength_le ‹List Char›
      simp only [Option.some.injEq] at h
      simp only [List.length_cons]
      omega
    · simp at h

/-- How many characters stand before the first end of a block comment, or all if there is none. -/
def beforeClose : List Char → Nat
  | [] => 0
  | c :: rest => if c = '*' ∧ rest.head? = some '/' then 0 else beforeClose rest + 1

theorem beforeClose_le (s : List Char) : beforeClose s ≤ s.length := by
  induction s with
  | nil => simp [beforeClose]
  | cons c rest ih =>
    simp only [beforeClose, List.length_cons]
    split <;> omega

/-- The text of a block comment. -/
def commentTextPattern : Pattern where
  label := "comment text"
  scan s := some (beforeClose s)
  scan_le s n h := by
    simp only [Option.some.injEq] at h
    exact h ▸ beforeClose_le s

variable {α : Type}

/-- A terminal with a text of its own. -/
def terminal (l : Lexeme) : Expr α := .literal l.text

/-- A name. -/
def name : Expr α := .pattern namePattern

/-- A number. -/
def number : Expr α := .pattern numberPattern

/-- One blank. -/
def blank : Expr α := .pattern blankPattern

/-- A comment up to the end of the line. -/
def lineComment : Expr α := .pattern lineCommentPattern

/-- A comment up to its first closing mark. -/
def blockComment : Expr α :=
  .seq [terminal .commentOpen, .pattern commentTextPattern, terminal .commentClose]

/-- What a gap is made of: one blank or one comment. -/
def gapUnit : Expr α := .choice [blank, lineComment, blockComment]

end MessageIdl.Schema
