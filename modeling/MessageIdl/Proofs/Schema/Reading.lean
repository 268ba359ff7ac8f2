import MessageIdl.Proofs.Schema.Language

/-!
# Reading a language from the front of a text

A reader that is greedy about gaps may take more than a text of the language: where a gap reaches the
end of the input, it takes a comment without its line feed as well.  `Reads L t r` says that a reader
that stands before `t` takes a text of `L`, and with it such a comment, and leaves `r`.

* `Leftover`: what is left once an open comment at the end is taken.
* `Reads.mul`, `Reads.uncons`, `Reads.split`: reading in a row.
* `Solid`: the texts at whose front no gap begins.
-/

namespace MessageIdl.Schema

open scoped Computability

/-- `rest` is what is left of `tail`: all of it, or nothing if `tail` is a comment without its line
feed. -/
def Leftover (tail rest : List Char) : Prop := tail = rest ∨ tail ∈ openCommentText ∧ rest = []

/-- A text of `L` stands at the front of `text`, and what follows it leaves `rest`. -/
def Reads (L : Language Char) (text rest : List Char) : Prop :=
  ∃ x ∈ L, ∃ tail, text = x ++ tail ∧ Leftover tail rest

/-- No gap begins at the front of a text. -/
def Solid (text : List Char) : Prop := ∀ c ∈ text.head?, c ∉ blanks ∧ c ≠ '/'

/-! ### What is left -/

theorem Leftover.refl (t : List Char) : Leftover t t := .inl rfl

theorem nil_not_mem_openCommentText : [] ∉ openCommentText := by
  rintro ⟨s, -, h⟩
  cases h

theorem Leftover.of_nil {rest : List Char} (h : Leftover [] rest) : rest = [] := by
  rcases h with h | ⟨h, -⟩
  · exact h.symm
  · exact absurd h nil_not_mem_openCommentText

theorem not_solid_of_openComment {t : List Char} (h : t ∈ openCommentText) : ¬ Solid t := by
  obtain ⟨s, -, rfl⟩ := h
  intro hs
  exact (hs '/' rfl).2 rfl

/-- An open comment is no leftover in front of which a gap has ended. -/
theorem Leftover.eq_of_solid {tail rest : List Char} (h : Leftover tail rest) (hs : Solid tail) :
    tail = rest := by
  rcases h with h | ⟨h, -⟩
  · exact h
  · exact absurd hs (not_solid_of_openComment h)

theorem Leftover.length_le {tail rest : List Char} (h : Leftover tail rest) :
    rest.length ≤ tail.length := by
  rcases h with rfl | ⟨-, rfl⟩
  · exact Nat.le_refl _
  · exact Nat.zero_le _

theorem solid_nil : Solid [] := nofun

theorem solid_cons {c : Char} {t : List Char} (h : c ∉ blanks ∧ c ≠ '/') : Solid (c :: t) := by
  intro c' hc'
  cases hc'
  exact h

/-! ### Reading in a row -/

namespace Reads

variable {L M : Language Char} {text mid rest : List Char}

theorem of_mem {x : List Char} (hx : x ∈ L) (rest : List Char) : Reads L (x ++ rest) rest :=
  ⟨x, hx, rest, rfl, .refl rest⟩

theorem mono (h : Reads L text rest) (hle : L ≤ M) : Reads M text rest := by
  obtain ⟨x, hx, tail, ht, hl⟩ := h
  exact ⟨x, hle hx, tail, ht, hl⟩

/-- Nothing is read. -/
theorem one (t : List Char) : Reads 1 t t := of_mem Language.nil_mem_one t

theorem of_nil (h : Reads L [] rest) : rest = [] := by
  obtain ⟨x, -, tail, ht, hl⟩ := h
  obtain ⟨-, rfl⟩ := List.append_eq_nil_iff.mp ht.symm
  exact hl.of_nil

/-- **Reading in a row.**  If an open comment was taken first, nothing is left to be read after
it. -/
theorem mul (h : Reads L text mid) (h' : Reads M mid rest) : Reads (L * M) text rest := by
  obtain ⟨x, hx, tail, rfl, hl⟩ := h
  obtain ⟨y, hy, tail', rfl, hl'⟩ := h'
  rcases hl with rfl | ⟨hopen, hnil⟩
  · exact ⟨x ++ y, Language.append_mem_mul hx hy, tail', (List.append_assoc x y tail').symm, hl'⟩
  · obtain ⟨rfl, rfl⟩ := List.append_eq_nil_iff.mp hnil
    refine ⟨x ++ [], Language.append_mem_mul hx hy, tail, ?_, .inr ⟨hopen, hl'.of_nil⟩⟩
    rw [List.append_nil]

/-- A text of the first language stands at the front of what is read, and the second one is read
behind it. -/
theorem uncons (h : Reads (L * M) text rest) :
    ∃ x ∈ L, ∃ mid, text = x ++ mid ∧ Reads M mid rest := by
  obtain ⟨z, hz, tail, rfl, hl⟩ := h
  obtain ⟨x, hx, y, hy, rfl⟩ := Language.mem_mul.mp hz
  exact ⟨x, hx, y ++ tail, List.append_assoc x y tail, y, hy, tail, rfl, hl⟩

/-- Two languages that are read in a row are read one after the other, if the second one never begins
like a gap. -/
theorem split (h : Reads (L * M) text rest) (hrest : Solid rest)
    (hM : ∀ y ∈ M, y ≠ [] → ∀ t, Solid (y ++ t)) :
    ∃ mid, Reads L text mid ∧ Reads M mid rest ∧ Solid mid := by
  obtain ⟨z, hz, tail, rfl, hl⟩ := h
  obtain ⟨x, hx, y, hy, rfl⟩ := Language.mem_mul.mp hz
  rcases eq_or_ne y [] with rfl | hne
  · rw [List.append_nil]
    exact ⟨rest, ⟨x, hx, tail, rfl, hl⟩, ⟨[], hy, rest, rfl, .refl rest⟩, hrest⟩
  · rw [List.append_assoc]
    exact ⟨y ++ tail, of_mem hx _, ⟨y, hy, tail, rfl, hl⟩, hM y hy hne tail⟩

/-- Something is taken if the language has no empty text. -/
theorem length_lt (h : Reads L text rest) (hL : [] ∉ L) : rest.length < text.length := by
  obtain ⟨x, hx, tail, rfl, hl⟩ := h
  have hpos : 0 < x.length := List.length_pos_iff.mpr fun h0 => hL (h0 ▸ hx)
  have hle := hl.length_le
  rw [List.length_append]
  omega

end Reads

/-! ### Words -/

theorem mem_word {w : String} {t : List Char} : t ∈ word w ↔ t = w.toList := Iff.rfl

theorem mem_nameText {s : String} {t : List Char} :
    t ∈ nameText s ↔ isIdentifier s = true ∧ t = s.toList := Iff.rfl

theorem mem_typeText {b : Bool} {s : String} {t : List Char} :
    t ∈ typeText b s ↔ IsTypeName s ∧ (b = false → s ≠ "repeated") ∧ t = s.toList := Iff.rfl

theorem mem_digitsText {t : List Char} :
    t ∈ digitsText ↔ t ≠ [] ∧ ∀ c ∈ t, c.isDigit = true := Iff.rfl

theorem Reads.of_word {w : String} {text rest : List Char} (h : text = w.toList ++ rest) :
    Reads (word w) text rest := by
  rw [h]
  exact Reads.of_mem (mem_word.mpr rfl) rest

end MessageIdl.Schema
