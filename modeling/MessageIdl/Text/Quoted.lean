import MessageIdl.Text.Printable

/-!
# Quoted text

How a text is shown inside a message: between quotation marks, on one line, with every character
visible.  One that is not printable is shown by its code point in base sixteen.

* `lowerHex`, `upperHex`: numbers in base sixteen with a least width.
* `delimiter`: the mark in use.  It is `'`, unless the text has a `'` and no `"`.
* `quoted`: the text between two such marks.
-/

namespace MessageIdl.Text

/-- The lower-case digits of `n` in base sixteen, filled up with zeros to `width`. -/
def lowerHex (width n : Nat) : List Char :=
  let digits := Nat.toDigits 16 n
  List.replicate (width - digits.length) '0' ++ digits

/-- The upper-case digits of `n` in base sixteen, filled up with zeros to `width`. -/
def upperHex (width n : Nat) : List Char := (lowerHex width n).map Char.toUpper

/-- A text that holds `'` but no `"` is put between `"`, every other one between `'`. -/
def delimiter (text : List Char) : Char :=
  if text.contains '\'' && !text.contains '"' then '"' else '\''

/-- The visible form of one character between marks `mark`: the mark, the backslash and three
controls have short forms, other characters that are not printable are written by code point. -/
def visible (mark c : Char) : List Char :=
  if c = mark ∨ c = '\\' then ['\\', c]
  else if c = '\t' then ['\\', 't']
  else if c = '\n' then ['\\', 'n']
  else if c = '\r' then ['\\', 'r']
  else if isPrintable c then [c]
  else if c.toNat < 0x100 then '\\' :: 'x' :: lowerHex 2 c.toNat
  else if c.toNat < 0x10000 then '\\' :: 'u' :: lowerHex 4 c.toNat
  else '\\' :: 'U' :: lowerHex 8 c.toNat

/-- The text between quotation marks, each character in its visible form. -/
def quoted (text : String) : String :=
  let chars := text.toList
  let mark := delimiter chars
  String.ofList (mark :: (chars.flatMap (visible mark) ++ [mark]))

end MessageIdl.Text
