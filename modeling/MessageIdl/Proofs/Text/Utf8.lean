import MessageIdl.Text.Encoding
import Mathlib.Tactic.Common

/-!
# Decoding what was encoded

* `followers_two`, `followers_three`, `followers_four`: what follows a byte that begins a longer form.
* `decodeUtf8_two`, `decodeUtf8_three`, `decodeUtf8_four`: the longer forms.
* `decodeUtf8_encodeChar`: the form of one character is decoded to the character.
* `decodeUtf8_encodeUtf8`: the bytes of a text are decoded to the text.
-/

namespace MessageIdl.Text

/-! ### Bytes as numbers -/

variable {a b : UInt8}

theorem byte_lt (h : a.toNat < b.toNat) : a < b := UInt8.lt_iff_toNat_lt.mpr h

theorem not_byte_lt (h : b.toNat ≤ a.toNat) : ¬ a < b :=
  UInt8.not_lt.mpr (UInt8.le_iff_toNat_le.mpr h)

theorem byte_ne (h : a.toNat ≠ b.toNat) : a ≠ b := fun heq => h (congrArg UInt8.toNat heq)

theorem byte_toNat {n : Nat} (h : n < 256) : (UInt8.ofNat n).toNat = n := Nat.mod_eq_of_lt h

/-- The bytes that continue a form. -/
theorem isContinuation_of (hlow : 128 ≤ b.toNat) (hhigh : b.toNat ≤ 191) :
    isContinuation b = true := by
  have hleft : 0x80 ≤ b := UInt8.le_iff_toNat_le.mpr hlow
  have hright : b ≤ 0xbf := UInt8.le_iff_toNat_le.mpr hhigh
  rw [isContinuation, decide_eq_true hleft, decide_eq_true hright, Bool.and_true]

/-! ### Longer forms -/

section Forms

variable {lead b1 b2 b3 : UInt8} {least greatest : UInt8} {rest : List UInt8}

theorem followers_two (hlow : 194 ≤ lead.toNat) (hhigh : lead.toNat < 224) :
    followers? lead = some (1, 0x80, 0xbf) := by
  have hc2 : ¬ lead < 0xc2 := not_byte_lt hlow
  have he0 : lead < 0xe0 := byte_lt hhigh
  rw [followers?, if_neg hc2, if_pos he0]

/-- Behind the first and the last byte that may begin three bytes, not all bytes continue. -/
theorem followers_three (hlow : 224 ≤ lead.toNat) (hhigh : lead.toNat < 240)
    (hb1 : 128 ≤ b1.toNat ∧ b1.toNat ≤ 191) (hfirst : lead.toNat = 224 → 160 ≤ b1.toNat)
    (hlast : lead.toNat = 237 → b1.toNat ≤ 159) :
    ∃ least greatest, followers? lead = some (2, least, greatest) ∧ ¬ b1 < least ∧
      ¬ greatest < b1 := by
  have hc2 : ¬ lead < 0xc2 := not_byte_lt (Nat.le_trans (by decide) hlow)
  have he0 : ¬ lead < 0xe0 := not_byte_lt hlow
  have hf0 : lead < 0xf0 := byte_lt hhigh
  rw [followers?, if_neg hc2, if_neg he0]
  by_cases h224 : lead = 0xe0
  · rw [if_pos h224]
    exact ⟨_, _, rfl, not_byte_lt (hfirst (congrArg UInt8.toNat h224)), not_byte_lt hb1.2⟩
  · rw [if_neg h224]
    by_cases h237 : lead = 0xed
    · rw [if_pos h237]
      exact ⟨_, _, rfl, not_byte_lt hb1.1, not_byte_lt (hlast (congrArg UInt8.toNat h237))⟩
    · rw [if_neg h237, if_pos hf0]
      exact ⟨_, _, rfl, not_byte_lt hb1.1, not_byte_lt hb1.2⟩

/-- So it is with four bytes. -/
theorem followers_four (hlow : 240 ≤ lead.toNat) (hhigh : lead.toNat ≤ 244)
    (hb1 : 128 ≤ b1.toNat ∧ b1.toNat ≤ 191) (hfirst : lead.toNat = 240 → 144 ≤ b1.toNat)
    (hlast : lead.toNat = 244 → b1.toNat ≤ 143) :
    ∃ least greatest, followers? lead = some (3, least, greatest) ∧ ¬ b1 < least ∧
      ¬ greatest < b1 := by
  have hc2 : ¬ lead < 0xc2 := not_byte_lt (Nat.le_trans (by decide) hlow)
  have he0 : ¬ lead < 0xe0 := not_byte_lt (Nat.le_trans (by decide) hlow)
  have h224 : lead ≠ 0xe0 := byte_ne (Nat.ne_of_gt (Nat.lt_of_lt_of_le (by decide) hlow))
  have h237 : lead ≠ 0xed := byte_ne (Nat.ne_of_gt (Nat.lt_of_lt_of_le (by decide) hlow))
  have hf0 : ¬ lead < 0xf0 := not_byte_lt hlow
  rw [followers?, if_neg hc2, if_neg he0, if_neg h224, if_neg h237, if_neg hf0]
  by_cases h240 : lead = 0xf0
  · rw [if_pos h240]
    exact ⟨_, _, rfl, not_byte_lt (hfirst (congrArg UInt8.toNat h240)), not_byte_lt hb1.2⟩
  · rw [if_neg h240]
    by_cases h244 : lead < 0xf4
    · rw [if_pos h244]
      exact ⟨_, _, rfl, not_byte_lt hb1.1, not_byte_lt hb1.2⟩
    · have heq : lead.toNat = 244 :=
        Nat.le_antisymm hhigh (UInt8.le_iff_toNat_le.mp (UInt8.not_lt.mp h244))
      rw [if_neg h244, if_pos (UInt8.toNat_inj.mp heq)]
      exact ⟨_, _, rfl, not_byte_lt hb1.1, not_byte_lt (hlast heq)⟩

theorem inRange (hb1 : ¬ b1 < least ∧ ¬ greatest < b1) :
    (decide (b1 < least) || decide (greatest < b1)) = false := by
  rw [decide_eq_false hb1.1, decide_eq_false hb1.2, Bool.or_false]

theorem decodeUtf8_one (h : lead.toNat < 128) :
    decodeUtf8 (lead :: rest) = (Char.ofNat lead.toNat :: ·) <$> decodeUtf8 rest := by
  have hlead : lead < 0x80 := byte_lt h
  rw [decodeUtf8, if_pos hlead]

theorem decodeUtf8_two (hlead : 128 ≤ lead.toNat)
    (hf : followers? lead = some (1, least, greatest)) (hb1 : ¬ b1 < least ∧ ¬ greatest < b1) :
    decodeUtf8 (lead :: b1 :: rest)
      = (Char.ofNat (pushBits (lead.toNat % 32) b1) :: ·) <$> decodeUtf8 rest := by
  have h80 : ¬ lead < 0x80 := not_byte_lt hlead
  rw [decodeUtf8, if_neg h80, hf]
  simp [inRange hb1]

theorem decodeUtf8_three (hlead : 128 ≤ lead.toNat)
    (hf : followers? lead = some (2, least, greatest)) (hb1 : ¬ b1 < least ∧ ¬ greatest < b1)
    (hb2 : isContinuation b2 = true) :
    decodeUtf8 (lead :: b1 :: b2 :: rest)
      = (Char.ofNat (pushBits (pushBits (lead.toNat % 16) b1) b2) :: ·) <$> decodeUtf8 rest := by
  have h80 : ¬ lead < 0x80 := not_byte_lt hlead
  rw [decodeUtf8, if_neg h80, hf]
  simp [inRange hb1, hb2]

theorem decodeUtf8_four (hlead : 128 ≤ lead.toNat)
    (hf : followers? lead = some (3, least, greatest)) (hb1 : ¬ b1 < least ∧ ¬ greatest < b1)
    (hb2 : isContinuation b2 = true) (hb3 : isContinuation b3 = true) :
    decodeUtf8 (lead :: b1 :: b2 :: b3 :: rest)
      = (Char.ofNat (pushBits (pushBits (pushBits (lead.toNat % 8) b1) b2) b3) :: ·)
        <$> decodeUtf8 rest := by
  have h80 : ¬ lead < 0x80 := not_byte_lt hlead
  rw [decodeUtf8, if_neg h80, hf]
  simp [inRange hb1, hb2, hb3]

end Forms

/-! ### Characters and texts -/

/-- Six bits that continue a form. -/
theorem continuation_toNat (n : Nat) : (UInt8.ofNat (n % 64 + 128)).toNat = n % 64 + 128 :=
  byte_toNat (by omega)

theorem isContinuation_ofNat (n : Nat) : isContinuation (UInt8.ofNat (n % 64 + 128)) = true := by
  refine isContinuation_of ?_ ?_ <;> rw [continuation_toNat] <;> omega

/-- **The form of a character is decoded to the character.** -/
theorem decodeUtf8_encodeChar (c : Char) (rest : List UInt8) :
    decodeUtf8 (String.utf8EncodeChar c ++ rest) = (c :: ·) <$> decodeUtf8 rest := by
  have hvalid : c.val.toNat < 0xd800 ∨ 0xdfff < c.val.toNat ∧ c.val.toNat < 0x110000 := c.valid
  have hchar {n : Nat} (h : n = c.val.toNat) : Char.ofNat n = c := h ▸ Char.ofNat_toNat c
  rw [String.utf8EncodeChar]
  generalize hv : c.val.toNat = v at hvalid hchar
  split
  · have hlead : (UInt8.ofNat v).toNat = v := byte_toNat (by omega)
    rw [List.singleton_append, decodeUtf8_one (by omega), hchar hlead]
  · split
    · have hlead : (UInt8.ofNat (v / 64 % 32 + 192)).toNat = v / 64 % 32 + 192 :=
        byte_toNat (by omega)
      have hb1 := continuation_toNat v
      have hf := @followers_two (UInt8.ofNat (v / 64 % 32 + 192)) (by omega) (by omega)
      have hrange : ¬ UInt8.ofNat (v % 64 + 128) < 0x80 ∧ ¬ 0xbf < UInt8.ofNat (v % 64 + 128) :=
        ⟨not_byte_lt (by rw [hb1]; exact Nat.le_add_left _ _),
          not_byte_lt (by rw [hb1]; show _ ≤ 191; omega)⟩
      rw [List.cons_append, List.singleton_append, decodeUtf8_two (by omega) hf hrange, hchar]
      rw [pushBits, hlead, hb1]
      omega
    · split
      · have hlead : (UInt8.ofNat (v / 4096 % 16 + 224)).toNat = v / 4096 % 16 + 224 :=
          byte_toNat (by omega)
        have hb1 := continuation_toNat (v / 64)
        have hb2 := continuation_toNat v
        obtain ⟨least, greatest, hf, hrange⟩ := @followers_three
          (UInt8.ofNat (v / 4096 % 16 + 224)) (UInt8.ofNat (v / 64 % 64 + 128))
          (by omega) (by omega) (by omega) (by omega) (by omega)
        rw [List.cons_append, List.cons_append, List.singleton_append,
          decodeUtf8_three (by omega) hf hrange (isContinuation_ofNat v), hchar]
        rw [pushBits, pushBits, hlead, hb1, hb2]
        omega
      · have hlead : (UInt8.ofNat (v / 262144 % 8 + 240)).toNat = v / 262144 % 8 + 240 :=
          byte_toNat (by omega)
        have hb1 := continuation_toNat (v / 4096)
        have hb2 := continuation_toNat (v / 64)
        have hb3 := continuation_toNat v
        obtain ⟨least, greatest, hf, hrange⟩ := @followers_four
          (UInt8.ofNat (v / 262144 % 8 + 240)) (UInt8.ofNat (v / 4096 % 64 + 128))
          (by omega) (by omega) (by omega) (by omega) (by omega)
        rw [List.cons_append, List.cons_append, List.cons_append, List.singleton_append,
          decodeUtf8_four (by omega) hf hrange (isContinuation_ofNat (v / 64))
            (isContinuation_ofNat v), hchar]
        rw [pushBits, pushBits, pushBits, hlead, hb1, hb2, hb3]
        omega

/-- **The bytes of a text are decoded to the text.** -/
theorem decodeUtf8_encodeUtf8 (text : String) : decodeUtf8 (encodeUtf8 text) = .ok text.toList := by
  rw [encodeUtf8]
  induction text.toList with
  | nil => rfl
  | cons c t ih =>
    rw [List.flatMap_cons, decodeUtf8_encodeChar, ih]
    rfl

end MessageIdl.Text
