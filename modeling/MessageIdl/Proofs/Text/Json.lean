import Mathlib.Algebra.Group.Nat.Defs
import MessageIdl.Proofs.Text.Codes
import MessageIdl.Text.Json

/-!
# JSON texts tell their values

No text of a value goes on as the text of another one, so a value can be read off any text that
begins with its own, and two values with one text are equal.

* `Json.readChar?`: the first character of what stands in a quoted string.
* `Json.encode_separates`, `Json.renderAt_separates`: a string, and a value, are told from others by
  their texts, whatever stands behind.
* `Json.render_injective`: two values with one text are equal.
-/

namespace MessageIdl.Text

/-! ### Hexadecimal digits -/

/-- The value of a lower-case hexadecimal digit. -/
def hexValue (c : Char) : Nat := if c.toNat < 0x41 then c.toNat - 0x30 else c.toNat - 0x57

/-- The number that hexadecimal digits stand for, the highest first. -/
def ofHex (ds : List Char) : Nat := ds.foldl (fun n c => 16 * n + hexValue c) 0

theorem hexValue_digitChar : ∀ d < 16, hexValue (Nat.digitChar d) = d := by decide

theorem ofHex_toDigits (n : Nat) : ofHex (Nat.toDigits 16 n) = n := by
  induction n using Nat.strongRecOn with
  | ind n ih =>
    rw [Nat.toDigits_eq_if (by decide)]
    split
    · rename_i hlt
      simp [ofHex, hexValue_digitChar n hlt]
    · have hdigit := hexValue_digitChar (n % 16) (Nat.mod_lt n (by decide))
      have hfront : ofHex (Nat.toDigits 16 (n / 16)) = n / 16 := ih (n / 16) (by omega)
      rw [ofHex] at hfront
      rw [ofHex, List.foldl_append, hfront, List.foldl_cons, List.foldl_nil, hdigit]
      omega

theorem ofHex_lowerHex (width n : Nat) : ofHex (lowerHex width n) = n := by
  have hzeros : ∀ k, (List.replicate k '0').foldl (fun n c => 16 * n + hexValue c) 0 = 0 := by
    intro k
    induction k with
    | zero => rfl
    | succ k ih => rw [List.replicate_succ, List.foldl_cons]; exact ih
  rw [lowerHex, ofHex, List.foldl_append, hzeros]
  exact ofHex_toDigits n

theorem length_lowerHex {width n : Nat} (hpos : 0 < width) (hn : n < 16 ^ width) :
    (lowerHex width n).length = width := by
  have hle : (Nat.toDigits 16 n).length ≤ width :=
    (Nat.length_toDigits_le_iff (by decide) hpos).mpr hn
  simp only [lowerHex, List.length_append, List.length_replicate]
  omega

namespace Json

/-! ### Strings -/

/-- The 16-bit unit that an escape at the front stands for, with the text behind it. -/
def readUnit? : List Char → Option (Nat × List Char)
  | '\\' :: 'u' :: a :: b :: c :: d :: rest => some (ofHex [a, b, c, d], rest)
  | _ => none

/-- The character that a backslash and `c` stand for. -/
def unescape (c : Char) : Char :=
  match c with
  | 'n' => '\n'
  | 'r' => '\r'
  | 't' => '\t'
  | 'f' => '\x0c'
  | 'b' => '\x08'
  | c => c

/-- The first character of what stands in a quoted string, with the text behind it. -/
def readChar? (cs : List Char) : Option (Char × List Char) :=
  match readUnit? cs with
  | some (n, rest) =>
      if 0xd800 ≤ n ∧ n < 0xdc00 then
        (readUnit? rest).map fun p =>
          (Char.ofNat (0x10000 + (n - 0xd800) * 0x400 + (p.1 - 0xdc00)), p.2)
      else some (Char.ofNat n, rest)
  | none =>
      match cs with
      | '\\' :: c :: rest => some (unescape c, rest)
      | c :: rest => some (c, rest)
      | [] => none

theorem readUnit?_unitEscape {n : Nat} (hn : n < 0x10000) (r : List Char) :
    readUnit? (unitEscape n ++ r) = some (n, r) := by
  have hvalue : ofHex (lowerHex 4 n) = n := ofHex_lowerHex 4 n
  have hlength : (lowerHex 4 n).length = 4 := length_lowerHex (by decide) hn
  match hdigits : lowerHex 4 n, hlength with
  | [a, b, c, d], _ =>
    rw [hdigits] at hvalue
    rw [unitEscape, hdigits]
    exact congrArg (fun m => some (m, r)) hvalue

/-- A character beyond the first plane is read off its two units. -/
theorem readChar?_pair {n : Nat} (h : n < 0x100000) (r : List Char) :
    readChar? (unitEscape (0xd800 + n / 0x400) ++ (unitEscape (0xdc00 + n % 0x400) ++ r)) =
      some (Char.ofNat (0x10000 + n), r) := by
  have hhigh : 0xd800 ≤ 0xd800 + n / 0x400 ∧ 0xd800 + n / 0x400 < 0xdc00 := by omega
  have hvalue : 0x10000 + (0xd800 + n / 0x400 - 0xd800) * 0x400 + (0xdc00 + n % 0x400 - 0xdc00) =
      0x10000 + n := by omega
  unfold readChar?
  rw [readUnit?_unitEscape (by omega)]
  simp only
  rw [if_pos hhigh, readUnit?_unitEscape (by omega), Option.map_some, hvalue]

/-- A character of the first plane is read off its unit, which is no half of a pair. -/
theorem readChar?_unit {c : Char} (h : c.toNat < 0x10000) (r : List Char) :
    readChar? (unitEscape c.toNat ++ r) = some (c, r) := by
  have hvalid : c.toNat.isValidChar := c.valid
  have hsingle : ¬ (0xd800 ≤ c.toNat ∧ c.toNat < 0xdc00) := by
    unfold Nat.isValidChar at hvalid
    omega
  unfold readChar?
  rw [readUnit?_unitEscape h]
  simp only
  rw [if_neg hsingle, Char.ofNat_toNat]

/-- A character that is no backslash is read as it stands. -/
theorem readChar?_cons {c : Char} (h : c ≠ '\\') (r : List Char) :
    readChar? (c :: r) = some (c, r) := by
  have hunit : readUnit? (c :: r) = none := by
    unfold readUnit?
    split
    · rename_i heq
      exact absurd (List.cons.inj heq).1 h
    · rfl
  unfold readChar?
  rw [hunit]
  split
  · contradiction
  · split
    · rename_i heq
      exact absurd (List.cons.inj heq).1 h
    · rename_i heq
      obtain ⟨rfl, rfl⟩ := List.cons.inj heq
      rfl
    · contradiction

theorem readChar?_encodeChar (c : Char) (r : List Char) :
    readChar? (encodeChar c ++ r) = some (c, r) := by
  unfold encodeChar
  split_ifs with hquote hback hn hr ht hf hb hplain hplane
  iterate 7 subst c; rfl
  · exact readChar?_cons hback r
  · exact readChar?_unit hplane r
  · have hvalid : c.toNat.isValidChar := c.valid
    have hsum : 0x10000 + (c.toNat - 0x10000) = c.toNat := by omega
    have hbound : c.toNat - 0x10000 < 0x100000 := by
      unfold Nat.isValidChar at hvalid
      omega
    rw [List.append_assoc, readChar?_pair hbound, hsum, Char.ofNat_toNat]

theorem encodeChar_separates (c d : Char) : Separates encodeChar c d :=
  separates_of_read readChar? readChar?_encodeChar c d

/-- No character is written with a quotation mark in front, so the mark ends a string. -/
theorem head?_encodeChar_append (c : Char) (r : List Char) :
    (encodeChar c ++ r).head? ≠ some '"' := by
  unfold encodeChar unitEscape
  split_ifs with hquote hback hn hr ht hf hb hplain hplane
  iterate 7 exact fun h => absurd (Option.some.inj h) (by decide)
  · exact fun h => hquote (Option.some.inj h)
  iterate 2 exact fun h => absurd (Option.some.inj h) (by decide)

theorem encode_separates (s t : String) : Separates encode s t := by
  intro r r' h
  simp only [encode, List.cons_append, List.cons.injEq, true_and, List.append_assoc] at h
  obtain ⟨hchars, hrest⟩ := separates_flatMap (fun r => r.head? = some '"')
    head?_encodeChar_append rfl rfl (fun c _ d _ => encodeChar_separates c d) h
  exact ⟨String.toList_injective hchars, (List.cons.inj hrest).2⟩

/-! ### Values -/

section

variable {α : Type} {depth : Nat} {opening closing : Char} {code : α → List Char}

/-- Elements between two brackets, each on a line of its own with a comma behind all but the last. -/
def bracketed (depth : Nat) (opening closing : Char) (code : α → List Char) : List α → List Char
  | [] => [opening, closing]
  | x :: xs =>
      opening :: (newLine (depth + 1) ++ code x
        ++ xs.flatMap (fun y => ',' :: (newLine (depth + 1) ++ code y)) ++ newLine depth ++ [closing])

theorem separates_comma {x y : α} (h : Separates code x y) :
    Separates (fun z => ',' :: (newLine depth ++ code z)) x y := by
  intro r s heq
  simp only [List.cons_append, List.cons.injEq, true_and, List.append_assoc,
    List.append_cancel_left_eq] at heq
  exact h r s heq

/-- The elements behind the first one end where a new line stands instead of a comma. -/
theorem bracketed_separates (hclosing : closing ≠ '\n') {xs ys : List α}
    (hxy : ∀ x ∈ xs, ∀ y ∈ ys, Separates code x y) :
    Separates (bracketed depth opening closing code) xs ys := by
  intro r s h
  match xs, ys with
  | [], [] => exact ⟨rfl, (List.cons.inj (List.cons.inj h).2).2⟩
  | [], y :: ys => exact absurd (List.cons.inj (List.cons.inj h).2).1 hclosing
  | x :: xs, [] => exact absurd (List.cons.inj (List.cons.inj h).2).1.symm hclosing
  | x :: xs, y :: ys =>
    simp only [bracketed, List.cons_append, List.cons.injEq, true_and, List.append_assoc,
      List.append_cancel_left_eq] at h
    obtain ⟨hfirst, hbehind⟩ := hxy x List.mem_cons_self y List.mem_cons_self _ _ h
    obtain ⟨hlist, hend⟩ := separates_flatMap (fun t => t.head? = some '\n')
      (fun z t => by simp) rfl rfl
      (fun x' hx' y' hy' => separates_comma
        (hxy x' (List.mem_cons_of_mem x hx') y' (List.mem_cons_of_mem y hy'))) hbehind
    exact ⟨by rw [hfirst, hlist], (List.cons.inj (List.append_cancel_left hend)).2⟩

end

/-- A member of an object. -/
def memberText (depth : Nat) (member : String × Json) : List Char :=
  encode member.1 ++ [':', ' '] ++ renderAt depth member.2

theorem renderAt_array (depth : Nat) (items : List Json) :
    renderAt depth (.array items) = bracketed depth '[' ']' (renderAt (depth + 1)) items := by
  have hitems : ∀ rest : List Json, renderItems (depth + 1) rest =
      rest.flatMap fun y => ',' :: (newLine (depth + 1) ++ renderAt (depth + 1) y) := by
    intro rest
    induction rest with
    | nil => simp [renderItems]
    | cons item rest ih => simp [renderItems, ih]
  cases items with
  | nil => simp [renderAt, bracketed]
  | cons item items => simp [renderAt, bracketed, hitems]

theorem renderAt_object (depth : Nat) (members : List (String × Json)) :
    renderAt depth (.object members) =
      bracketed depth '\x7b' '\x7d' (memberText (depth + 1)) members := by
  have hmembers : ∀ rest : List (String × Json), renderMembers (depth + 1) rest =
      rest.flatMap fun y => ',' :: (newLine (depth + 1) ++ memberText (depth + 1) y) := by
    intro rest
    induction rest with
    | nil => simp [renderMembers]
    | cons member rest ih => simp [renderMembers, memberText, ih]
  cases members with
  | nil => simp [renderAt, bracketed]
  | cons member members => simp [renderAt, bracketed, memberText, hmembers]

theorem memberText_separates {depth : Nat} {a b : String × Json}
    (h : Separates (renderAt depth) a.2 b.2) : Separates (memberText depth) a b := by
  intro r s heq
  simp only [memberText, List.append_assoc] at heq
  obtain ⟨hkey, hbehind⟩ := encode_separates _ _ _ _ heq
  obtain ⟨hvalue, hrs⟩ := h r s (List.append_cancel_left hbehind)
  exact ⟨Prod.ext hkey hvalue, hrs⟩

/-- The first character of the text of a value. -/
def mark : Json → Char
  | .null => 'n'
  | .bool true => 't'
  | .bool false => 'f'
  | .string _ => '"'
  | .array _ => '['
  | .object _ => '\x7b'

theorem head?_renderAt (depth : Nat) (v : Json) (r : List Char) :
    (renderAt depth v ++ r).head? = some v.mark := by
  cases v with
  | null => simp [renderAt, mark]
  | bool b => cases b <;> simp [renderAt, mark]
  | string s => simp [renderAt, encode, mark]
  | array items => cases items <;> simp [renderAt, mark]
  | object members => cases members <;> simp [renderAt, mark]

theorem mark_eq_of_append {depth : Nat} {v w : Json} {r s : List Char}
    (h : renderAt depth v ++ r = renderAt depth w ++ s) : v.mark = w.mark := by
  have hhead := congrArg List.head? h
  rw [head?_renderAt, head?_renderAt] at hhead
  exact Option.some.inj hhead

/-- The text of a value at any depth tells the value and where it ends. -/
theorem renderAt_separates (depth : Nat) (v w : Json) : Separates (renderAt depth) v w := by
  intro r s h
  have hmark := mark_eq_of_append h
  -- values of different kinds have different marks
  match v, w with
  | .null, .null => exact ⟨rfl, List.append_cancel_left h⟩
  | .bool true, .bool true => exact ⟨rfl, List.append_cancel_left h⟩
  | .bool false, .bool false => exact ⟨rfl, List.append_cancel_left h⟩
  | .string a, .string b =>
    simp only [renderAt] at h
    obtain ⟨rfl, hrs⟩ := encode_separates a b r s h
    exact ⟨rfl, hrs⟩
  | .array items, .array items' =>
    rw [renderAt_array, renderAt_array] at h
    obtain ⟨rfl, hrs⟩ := bracketed_separates (by decide)
      (fun a ha b _ => renderAt_separates (depth + 1) a b) r s h
    exact ⟨rfl, hrs⟩
  | .object members, .object members' =>
    rw [renderAt_object, renderAt_object] at h
    obtain ⟨rfl, hrs⟩ := bracketed_separates (by decide)
      (fun a ha b _ => memberText_separates (renderAt_separates (depth + 1) a.2 b.2)) r s h
    exact ⟨rfl, hrs⟩
termination_by v
decreasing_by
  · have hitem := List.sizeOf_lt_of_mem ha
    simp only [array.sizeOf_spec]
    omega
  · have hmember := List.sizeOf_lt_of_mem ha
    have hvalue : sizeOf a.2 < sizeOf a := by
      cases a
      simp only [Prod.mk.sizeOf_spec]
      omega
    simp only [object.sizeOf_spec]
    omega

theorem render_injective : Function.Injective render := by
  intro v w h
  have htext : renderAt 0 v = renderAt 0 w := String.ofList_injective h
  exact (renderAt_separates 0 v w [] [] (by rw [htext])).1

end Json

end MessageIdl.Text
