import MessageIdl.Proofs.Schema.Gaps

/-!
# Texts that end inside a block comment

A schema has slashes in comments only.  What stands in front of a comment is a row of comments that are
over and of characters other than slashes, and there is one way at most to cut such a front into parts.

* `frontText`, `insideText`, `openText`: fronts, comments that are not closed, and texts that end in one.
* `openText_of_part`, `openText_of_front`: what stands behind a front ends inside a comment as well.
* `Reads.openText`: so does what is left of a text once a front of it is read.
-/

namespace MessageIdl.Schema

open MessageIdl.Peg MessageIdl.Source
open scoped Computability

/-- One character other than a slash. -/
def bareText : Language Char := {t | ∃ c, c ≠ '/' ∧ t = [c]}

/-- Texts in which each slash belongs to a comment that is over. -/
def frontText : Language Char := (unitText + bareText)∗

/-- A block comment that is not closed. -/
def insideText : Language Char := {t | ∃ b, ¬ ['*', '/'] <:+: b ∧ t = '/' :: '*' :: b}

/-- Texts that end inside a block comment. -/
def openText : Language Char := frontText * insideText

section Texts

variable {p q r s t u : List Char}

/-- A part of a front is a comment, or one character other than a slash. -/
theorem mem_part (h : p ∈ unitText + bareText) :
    (∃ c, c ≠ '/' ∧ p = [c]) ∨ p ∈ unitText ∧ p.head? = some '/' := by
  rcases h with h | h
  · rcases mem_unitText h with ⟨c, hc, rfl⟩ | ⟨s, -, rfl⟩ | ⟨s, -, rfl⟩
    · refine .inl ⟨c, ?_, rfl⟩
      rintro rfl
      exact slash_not_mem_blanks hc
    · exact .inr ⟨h, rfl⟩
    · exact .inr ⟨h, rfl⟩
  · exact .inl h

/-- There is one unit at most at the front of a text. -/
theorem unit_append_inj (hp : p ∈ unitText) (hq : q ∈ unitText) (h : p ++ s = q ++ r) : s = r := by
  have htake (u t : List Char) (hu : u ∈ unitText) :
      Takes rules.find (LineIndex.ofText "" []) gapUnit (u ++ t) t (fun _ => True) := takes_gapUnit hu t
  obtain ⟨_, _, hy, hs, -⟩ := htake p s hp ⟨0, p ++ s⟩ rfl
  obtain ⟨_, _, hy', hr, -⟩ := htake q r hq ⟨0, p ++ s⟩ h
  cases hy.deterministic hy'
  exact hs.symm.trans hr

theorem mem_openText (hx : s ∈ frontText) {b : List Char} (hb : ¬ ['*', '/'] <:+: b) :
    s ++ '/' :: '*' :: b ∈ openText :=
  Language.append_mem_mul hx ⟨b, hb, rfl⟩

/-- The front of such a text, one part at a time. -/
theorem openText_cases (h : t ∈ openText) :
    t ∈ insideText ∨ ∃ p ∈ unitText + bareText, ∃ r ∈ openText, t = p ++ r := by
  obtain ⟨x, hx, y, hy, rfl⟩ := Language.mem_mul.mp h
  obtain ⟨parts, rfl, hparts⟩ := Language.mem_kstar.mp hx
  cases parts with
  | nil => exact .inl hy
  | cons p parts =>
    have hrest : parts.flatten ∈ frontText :=
      Language.mem_kstar.mpr ⟨parts, rfl, fun q hq => hparts q (List.mem_cons_of_mem p hq)⟩
    refine .inr ⟨p, hparts p List.mem_cons_self, _, Language.append_mem_mul hrest hy, ?_⟩
    rw [List.flatten_cons, List.append_assoc]

theorem slash_mem_of_openText (h : t ∈ openText) : '/' ∈ t := by
  obtain ⟨x, -, _, ⟨b, -, rfl⟩, rfl⟩ := Language.mem_mul.mp h
  exact List.mem_append_right x List.mem_cons_self

theorem nil_not_mem_openText : [] ∉ openText :=
  fun h => List.not_mem_nil (slash_mem_of_openText h)

/-- A comment that is over is not the one in which the text ends. -/
theorem not_inside_of_unit (hp : p ∈ unitText) : p ++ s ∉ insideText := by
  rintro ⟨b, hb, h⟩
  rcases mem_unitText hp with ⟨c, hc, rfl⟩ | ⟨u, -, rfl⟩ | ⟨u, -, rfl⟩
  · cases h
    exact slash_not_mem_blanks hc
  · cases h
  · simp only [List.cons_append, List.append_assoc, List.nil_append, List.cons.injEq, true_and] at h
    exact hb ⟨u, s, by rw [← h, List.append_assoc]; rfl⟩

/-- **What stands behind a part of such a text** ends inside a comment as well. -/
theorem openText_of_part (hp : p ∈ unitText + bareText) (h : p ++ s ∈ openText) : s ∈ openText := by
  rcases openText_cases h with hinside | ⟨q, hq, r, hr, heq⟩
  · rcases mem_part hp with ⟨c, hc, rfl⟩ | ⟨hunit, -⟩
    · obtain ⟨b, -, hb⟩ := hinside
      exact absurd (List.cons.inj hb).1 hc
    · exact absurd hinside (not_inside_of_unit hunit)
  · rcases mem_part hp with ⟨c, hc, rfl⟩ | ⟨hunit, hhead⟩
    · rcases mem_part hq with ⟨d, -, rfl⟩ | ⟨-, hhead'⟩
      · have hsame : s = r := (List.cons.inj heq).2
        rwa [hsame]
      · obtain ⟨q', rfl⟩ := List.head?_eq_some_iff.mp hhead'
        exact absurd (List.cons.inj heq).1 hc
    · rcases mem_part hq with ⟨d, hd, rfl⟩ | ⟨hunit', -⟩
      · obtain ⟨p', rfl⟩ := List.head?_eq_some_iff.mp hhead
        exact absurd (List.cons.inj heq).1.symm hd
      · rwa [unit_append_inj hunit hunit' heq]

theorem openText_of_front (hs : s ∈ frontText) (h : s ++ t ∈ openText) : t ∈ openText := by
  obtain ⟨parts, rfl, hparts⟩ := Language.mem_kstar.mp hs
  clear hs
  induction parts with
  | nil => exact h
  | cons p parts ih =>
    rw [List.flatten_cons, List.append_assoc] at h
    exact ih (fun q hq => hparts q (List.mem_cons_of_mem p hq))
      (openText_of_part (hparts p List.mem_cons_self) h)

/-- A comment up to the end of the text is not closed by it either, but by a line feed. -/
theorem not_openText_of_openComment (h : t ∈ openCommentText) : t ∉ openText := by
  obtain ⟨u, hu, rfl⟩ := h
  intro hopen
  rcases openText_cases hopen with ⟨b, -, hb⟩ | ⟨p, hp, r, -, heq⟩
  · cases hb
  · rcases mem_part hp with ⟨c, hc, rfl⟩ | ⟨hunit, hhead⟩
    · exact hc (List.cons.inj heq).1.symm
    · rcases mem_unitText hunit with ⟨c, hc, rfl⟩ | ⟨l, -, rfl⟩ | ⟨l, -, rfl⟩
      · cases hhead
        exact slash_not_mem_blanks hc
      · simp only [List.cons_append, List.cons.injEq, true_and] at heq
        rw [heq] at hu
        simp at hu
      · cases heq

/-- What is left behind a front ends inside a comment if the whole text does. -/
theorem Reads.openText (h : Reads frontText t r) (ht : t ∈ openText) : r ∈ openText := by
  obtain ⟨x, hx, tail, rfl, hl⟩ := h
  have htail := openText_of_front hx ht
  rcases hl with rfl | ⟨hcomment, -⟩
  · exact htail
  · exact absurd htail (not_openText_of_openComment hcomment)

theorem Reads.front_trans (h : Reads frontText s t) (h' : Reads frontText t u) :
    Reads frontText s u :=
  (h.mul h').mono (kstar_mul_kstar (unitText + bareText)).le

theorem Reads.front_refl (t : List Char) : Reads frontText t t := .of_mem (Language.nil_mem_kstar _) t

theorem mem_frontText_of_slash (h : '/' ∉ s) : s ∈ frontText := by
  refine Language.mem_kstar.mpr ⟨s.map fun c => [c], ?_, fun p hp => ?_⟩
  · induction s with
    | nil => rfl
    | cons c s ih =>
      rw [List.map_cons, List.flatten_cons, ← ih fun hs => h (List.mem_cons_of_mem c hs)]
      rfl
  · obtain ⟨c, hc, rfl⟩ := List.mem_map.mp hp
    exact .inr ⟨c, fun hslash => h (hslash ▸ hc), rfl⟩

end Texts

end MessageIdl.Schema
