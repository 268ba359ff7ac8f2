/-!
# Text encodings

How the bytes of a file become characters, and what is wrong with bytes that do not.  A text may end its
lines with a carriage return, a line feed, or one after the other; reading makes a single line feed of each.

* `Encoding`: the encodings that can be named, `Encoding.named?` the names they go by.
* `Encoding.decode`: the characters of a byte sequence, or the first fault in it.
* `decodeUtf8`: UTF-8 without overlong forms, surrogates and code points beyond U+10FFFF.
* `unifyLineBreaks`: the characters of a text with its line breaks as line feeds.
-/

namespace MessageIdl.Text

/-- The ways of writing characters as bytes; `utf8Marked` allows one byte order mark in front. -/
inductive Encoding where
  | utf8
  | utf8Marked
  | latin1
  | ascii
deriving DecidableEq

/-- What is wrong with the first bad byte of a file. -/
inductive DecodeFault where
  | badStart
  | badContinuation
  | truncated
  | notAscii
deriving DecidableEq

/-- The wording of a fault. -/
def DecodeFault.message : DecodeFault → String
  | .badStart => "invalid start byte"
  | .badContinuation => "invalid continuation byte"
  | .truncated => "unexpected end of data"
  | .notAscii => "ordinal not in range(128)"

/-! ### Names -/

/-- Names are compared in lower case, with every run of other characters than letters, digits and
full stops between two of these as one underscore. -/
def foldName (name : List Char) : List Char :=
  let isPart (c : Char) : Bool := c.isAlphanum || c = '.'
  let step (state : List Char × Bool) (c : Char) : List Char × Bool :=
    if isPart c then
      ((if state.2 && !state.1.isEmpty then c.toLower :: '_' :: state.1 else c.toLower :: state.1),
        false)
    else (state.1, true)
  (name.foldl step ([], false)).1.reverse

/-- The names of each encoding, in the folded form of `foldName`. -/
def Encoding.names : Encoding → List String
  | .utf8 => ["utf_8", "utf8", "u8", "utf", "utf8_ucs2", "utf8_ucs4", "cp65001"]
  | .utf8Marked => ["utf_8_sig"]
  | .latin1 =>
      ["latin_1", "latin1", "latin", "l1", "iso_8859_1", "iso8859_1", "iso8859", "8859", "cp819",
        "csisolatin1", "ibm819", "iso_8859_1_1987", "iso_ir_100"]
  | .ascii =>
      ["ascii", "us_ascii", "us", "646", "ansi_x3.4_1968", "ansi_x3_4_1968", "ansi_x3.4_1986",
        "cp367", "csascii", "ibm367", "iso646_us", "iso_646.irv_1991", "iso_ir_6"]

/-- The encoding that goes by a name. -/
def Encoding.named? (name : String) : Option Encoding :=
  let folded := String.ofList (foldName name.toList)
  [Encoding.utf8, .utf8Marked, .latin1, .ascii].find? fun e => e.names.contains folded

/-! ### Decoding -/

/-- What may follow a byte that begins a longer UTF-8 form: how many bytes, and the least and the
greatest value of the first of them. -/
def followers? (lead : UInt8) : Option (Nat × UInt8 × UInt8) :=
  if lead < 0xc2 then none
  else if lead < 0xe0 then some (1, 0x80, 0xbf)
  else if lead = 0xe0 then some (2, 0xa0, 0xbf)
  else if lead = 0xed then some (2, 0x80, 0x9f)
  else if lead < 0xf0 then some (2, 0x80, 0xbf)
  else if lead = 0xf0 then some (3, 0x90, 0xbf)
  else if lead < 0xf4 then some (3, 0x80, 0xbf)
  else if lead = 0xf4 then some (3, 0x80, 0x8f)
  else none

/-- The six payload bits of a continuation byte put after the bits read so far. -/
def pushBits (n : Nat) (b : UInt8) : Nat := n * 64 + b.toNat % 64

/-- Whether a byte lies in the range of all continuation bytes. -/
def isContinuation (b : UInt8) : Bool := 0x80 ≤ b && b ≤ 0xbf

/-- The characters of UTF-8 bytes, or the first fault in them. -/
def decodeUtf8 : List UInt8 → Except DecodeFault (List Char)
  | [] => .ok []
  | lead :: rest =>
      if lead < 0x80 then (Char.ofNat lead.toNat :: ·) <$> decodeUtf8 rest
      else match followers? lead with
        | none => .error .badStart
        | some (count, least, greatest) =>
            match rest with
            | [] => .error .truncated
            | b1 :: rest1 =>
                if b1 < least || greatest < b1 then .error .badContinuation
                else if count = 1 then
                  (Char.ofNat (pushBits (lead.toNat % 32) b1) :: ·) <$> decodeUtf8 rest1
                else match rest1 with
                  | [] => .error .truncated
                  | b2 :: rest2 =>
                      if !isContinuation b2 then .error .badContinuation
                      else if count = 2 then
                        (Char.ofNat (pushBits (pushBits (lead.toNat % 16) b1) b2) :: ·)
                          <$> decodeUtf8 rest2
                      else match rest2 with
                        | [] => .error .truncated
                        | b3 :: rest3 =>
                            if !isContinuation b3 then .error .badContinuation
                            else
                              (Char.ofNat
                                (pushBits (pushBits (pushBits (lead.toNat % 8) b1) b2) b3) :: ·)
                                <$> decodeUtf8 rest3

/-- The byte order mark in UTF-8. -/
def byteOrderMark : List UInt8 := [0xef, 0xbb, 0xbf]

/-- The characters of the bytes.  A marked text loses its leading mark, also one that the end of the
data cuts short. -/
def Encoding.decode : Encoding → List UInt8 → Except DecodeFault (List Char)
  | .utf8, bytes => decodeUtf8 bytes
  | .utf8Marked, bytes =>
      if bytes.length < 3 && bytes.isPrefixOf byteOrderMark then .ok []
      else if byteOrderMark.isPrefixOf bytes then decodeUtf8 (bytes.drop 3)
      else decodeUtf8 bytes
  | .latin1, bytes => .ok (bytes.map fun b => Char.ofNat b.toNat)
  | .ascii, bytes =>
      if bytes.all (· < 0x80) then .ok (bytes.map fun b => Char.ofNat b.toNat)
      else .error .notAscii

/-- The UTF-8 bytes of a text. -/
def encodeUtf8 (text : String) : List UInt8 := text.toList.flatMap String.utf8EncodeChar

/-! ### Line breaks -/

/-- Every carriage return, with the line feed after it if there is one, becomes a line feed. -/
def unifyLineBreaks : List Char → List Char
  | [] => []
  | '\r' :: '\n' :: rest => '\n' :: unifyLineBreaks rest
  | c :: rest => (if c = '\r' then '\n' else c) :: unifyLineBreaks rest

end MessageIdl.Text
