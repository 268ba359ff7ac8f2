import MessageIdl.Proofs.Peg.Refinement

/-!
# Failures on the way

Which failures happen while an expression is tried, told by the declarative meaning alone: those of
literals, patterns and the end of the input, and those of negative lookaheads whose body matches.  What
is tried inside a lookahead does not count.

* `Misses`: the relation.
* `Misses.reaches`: a failure happens in the text that was left.
* `misses_seq_matched`, `misses_row_append`, `misses_choice_failed`, …: the failures of a compound expression are those of
  the parts that are tried.
-/

namespace MessageIdl.Peg

open MessageIdl.Source

variable {α : Type}

/-- `Misses find lines e c pos label`: while `e` is tried at `c`, `label` is expected at the offset `pos`
and not found there, outside any lookahead. -/
inductive Misses (find : String → Option (Expr α)) (lines : LineIndex) :
    Expr α → Cursor → Nat → String → Prop where
  | literal {text c} : ¬ text.toList <+: c.rest →
      Misses find lines (.literal text) c c.offset (literalLabel text)
  | pattern {p c} : p.scan c.rest = none → Misses find lines (.pattern p) c c.offset p.label
  | endOfInput {c} : c.rest ≠ [] → Misses find lines .endOfInput c c.offset endLabel
  | ref {name body c pos label} : find name = some body → Misses find lines body c pos label →
      Misses find lines (.ref name) c pos label
  | seq_head {e es c pos label} : Misses find lines e c pos label →
      Misses find lines (.seq (e :: es)) c pos label
  | seq_tail {e es c mid v pos label} : Yields find lines e c (.matched mid v) →
      Misses find lines (.seq es) mid pos label → Misses find lines (.seq (e :: es)) c pos label
  | choice_head {e es c pos label} : Misses find lines e c pos label →
      Misses find lines (.choice (e :: es)) c pos label
  | choice_next {e es c pos label} : Yields find lines e c .failed →
      Misses find lines (.choice es) c pos label → Misses find lines (.choice (e :: es)) c pos label
  | round {least e c pos label} : Misses find lines e c pos label →
      Misses find lines (.repeated least e) c pos label
  | round_more {least e c mid v pos label} : Yields find lines e c (.matched mid v) →
      mid.offset ≠ c.offset → Misses find lines (.repeated least e) mid pos label →
      Misses find lines (.repeated least e) c pos label
  | optional {e c pos label} : Misses find lines e c pos label →
      Misses find lines (.optional e) c pos label
  | not {e c stop v} : Yields find lines e c (.matched stop v) →
      Misses find lines (.not e) c c.offset ("not " ++ e.display)
  | action {act e c pos label} : Misses find lines e c pos label →
      Misses find lines (.action act e) c pos label

variable {find : String → Option (Expr α)} {lines : LineIndex} {e : Expr α} {es : List (Expr α)}
  {c mid stop : Cursor} {v : Value α} {o : Outcome α} {pos : Nat} {label : String}

/-- A failure happens behind some of the characters that were left. -/
theorem Misses.reaches (h : Misses find lines e c pos label) :
    ∃ spot, c.Reaches spot ∧ spot.offset = pos := by
  induction h with
  | ref _ _ ih => exact ih
  | seq_head _ ih => exact ih
  | seq_tail hy _ ih =>
    obtain ⟨spot, hr, hpos⟩ := ih
    exact ⟨spot, hy.reaches.trans hr, hpos⟩
  | choice_head _ ih => exact ih
  | choice_next _ _ ih => exact ih
  | round _ ih => exact ih
  | round_more hy _ _ ih =>
    obtain ⟨spot, hr, hpos⟩ := ih
    exact ⟨spot, hy.reaches.trans hr, hpos⟩
  | optional _ ih => exact ih
  | action _ ih => exact ih
  | _ => exact ⟨_, .refl _, rfl⟩

/-! ### The failures of terminals -/

theorem not_misses_literal {text : String} (hp : text.toList <+: c.rest) :
    ¬ Misses find lines (.literal text) c pos label := by
  intro h
  cases h with
  | literal hn => exact hn hp

theorem misses_literal {text : String} (hp : ¬ text.toList <+: c.rest) :
    Misses find lines (.literal text) c pos label ↔ pos = c.offset ∧ label = literalLabel text := by
  constructor
  · rintro ⟨⟩
    exact ⟨rfl, rfl⟩
  · rintro ⟨rfl, rfl⟩
    exact .literal hp

theorem not_misses_pattern {p : Pattern} {n : Nat} (hs : p.scan c.rest = some n) :
    ¬ Misses find lines (.pattern p) c pos label := by
  intro h
  cases h with
  | pattern hn =>
    rw [hs] at hn
    cases hn

theorem misses_pattern {p : Pattern} (hs : p.scan c.rest = none) :
    Misses find lines (.pattern p) c pos label ↔ pos = c.offset ∧ label = p.label := by
  constructor
  · rintro ⟨⟩
    exact ⟨rfl, rfl⟩
  · rintro ⟨rfl, rfl⟩
    exact .pattern hs

theorem not_misses_endOfInput (he : c.rest = []) :
    ¬ Misses find lines .endOfInput c pos label := by
  intro h
  cases h with
  | endOfInput hn => exact hn he

theorem misses_endOfInput (he : c.rest ≠ []) :
    Misses find lines .endOfInput c pos label ↔ pos = c.offset ∧ label = endLabel := by
  constructor
  · rintro ⟨⟩
    exact ⟨rfl, rfl⟩
  · rintro ⟨rfl, rfl⟩
    exact .endOfInput he

/-! ### The failures of compound expressions -/

theorem misses_ref {name : String} {body : Expr α} (hf : find name = some body) :
    Misses find lines (.ref name) c pos label ↔ Misses find lines body c pos label := by
  constructor
  · intro h
    cases h with
    | ref hf' h =>
      rw [hf] at hf'
      cases hf'
      exact h
  · exact .ref hf

theorem not_misses_ref {name : String} (hf : find name = none) :
    ¬ Misses find lines (.ref name) c pos label := by
  intro h
  cases h with
  | ref hf' =>
    rw [hf] at hf'
    cases hf'

theorem not_misses_seq_nil : ¬ Misses find lines (.seq []) c pos label := nofun

/-- Behind a match of the first item the others are tried. -/
theorem misses_seq_matched (hy : Yields find lines e c (.matched mid v)) :
    Misses find lines (.seq (e :: es)) c pos label ↔
      Misses find lines e c pos label ∨ Misses find lines (.seq es) mid pos label := by
  constructor
  · intro h
    cases h with
    | seq_head h => exact .inl h
    | seq_tail hy' h =>
      cases hy.deterministic hy'
      exact .inr h
  · rintro (h | h)
    · exact .seq_head h
    · exact .seq_tail hy h

/-- Where the first item does not match, no other one is tried. -/
theorem misses_seq_stop (hy : Yields find lines e c o) (hu : o.Unmatched) :
    Misses find lines (.seq (e :: es)) c pos label ↔ Misses find lines e c pos label := by
  constructor
  · intro h
    cases h with
    | seq_head h => exact h
    | seq_tail hy' _ => exact absurd (hy.deterministic hy') (hu _ _)
  · exact .seq_head

theorem not_misses_choice_nil : ¬ Misses find lines (.choice []) c pos label := nofun

/-- Behind a row that matches more items are tried, by induction on the row. -/
theorem misses_row_append {es' : List (Expr α)} (hy : Yields find lines (.seq es) c (.matched mid v)) :
    Misses find lines (.seq (es ++ es')) c pos label ↔
      Misses find lines (.seq es) c pos label ∨ Misses find lines (.seq es') mid pos label := by
  induction es generalizing c v with
  | nil =>
    cases hy with
    | seq_nil => exact (or_iff_right not_misses_seq_nil).symm
  | cons e es ih =>
    obtain ⟨_, x, xs, hx, hxs, -⟩ := hy.of_seq_cons
    rw [List.cons_append, misses_seq_matched hx, misses_seq_matched hx, ih hxs, or_assoc]

/-- A failure of a choice is one of its alternatives. -/
theorem Misses.exists_alternative (h : Misses find lines (.choice es) c pos label) :
    ∃ e ∈ es, Misses find lines e c pos label := by
  induction es with
  | nil => exact absurd h not_misses_choice_nil
  | cons e es ih =>
    cases h with
    | choice_head h => exact ⟨e, List.mem_cons_self, h⟩
    | choice_next _ h =>
      obtain ⟨e', he', h⟩ := ih h
      exact ⟨e', List.mem_cons_of_mem e he', h⟩

/-- Where the first alternative fails, the others are tried. -/
theorem misses_choice_failed (hy : Yields find lines e c .failed) :
    Misses find lines (.choice (e :: es)) c pos label ↔
      Misses find lines e c pos label ∨ Misses find lines (.choice es) c pos label := by
  constructor
  · intro h
    cases h with
    | choice_head h => exact .inl h
    | choice_next _ h => exact .inr h
  · rintro (h | h)
    · exact .choice_head h
    · exact .choice_next hy h

/-- A choice commits to the first alternative that does not fail. -/
theorem misses_choice_commit (hy : Yields find lines e c o) (hne : o ≠ .failed) :
    Misses find lines (.choice (e :: es)) c pos label ↔ Misses find lines e c pos label := by
  constructor
  · intro h
    cases h with
    | choice_head h => exact h
    | choice_next hy' _ => exact absurd (hy.deterministic hy') hne
  · exact .choice_head

/-- Behind a round that takes something there is another one. -/
theorem misses_round_more {least : Int} (hy : Yields find lines e c (.matched mid v))
    (hne : mid.offset ≠ c.offset) : Misses find lines (.repeated least e) c pos label ↔
      Misses find lines e c pos label ∨ Misses find lines (.repeated least e) mid pos label := by
  constructor
  · intro h
    cases h with
    | round h => exact .inl h
    | round_more hy' _ h =>
      cases hy.deterministic hy'
      exact .inr h
  · rintro (h | h)
    · exact .round h
    · exact .round_more hy hne h

/-- A round that takes nothing is the last one, as is one that does not match. -/
theorem misses_round_last {least : Int} (hy : Yields find lines e c o)
    (hlast : ∀ mid v, o = .matched mid v → mid.offset = c.offset) :
    Misses find lines (.repeated least e) c pos label ↔ Misses find lines e c pos label := by
  constructor
  · intro h
    cases h with
    | round h => exact h
    | round_more hy' hne _ => exact absurd (hlast _ _ (hy.deterministic hy')) hne
  · exact .round

/-- The rounds that are tried do not depend on the least number of them. -/
theorem Misses.of_least {least least' : Int} (h : Misses find lines (.repeated least e) c pos label) :
    Misses find lines (.repeated least' e) c pos label := by
  generalize hr : Expr.repeated least e = r at h
  induction h with
  | round h =>
    cases hr
    exact .round h
  | round_more hy hne _ ih =>
    cases hr
    exact .round_more hy hne (ih rfl)
  | _ => cases hr

theorem misses_optional :
    Misses find lines (.optional e) c pos label ↔ Misses find lines e c pos label := by
  constructor
  · intro h
    cases h with
    | optional h => exact h
  · exact .optional

theorem misses_action {act : Action α} :
    Misses find lines (.action act e) c pos label ↔ Misses find lines e c pos label := by
  constructor
  · intro h
    cases h with
    | action h => exact h
  · exact .action

theorem misses_not (hy : Yields find lines e c (.matched stop v)) :
    Misses find lines (.not e) c pos label ↔ pos = c.offset ∧ label = "not " ++ e.display := by
  constructor
  · rintro ⟨⟩
    exact ⟨rfl, rfl⟩
  · rintro ⟨rfl, rfl⟩
    exact .not hy

theorem not_misses_not (hy : Yields find lines e c o) (hu : o.Unmatched) :
    ¬ Misses find lines (.not e) c pos label := by
  intro h
  cases h with
  | not hy' => exact hu _ _ (hy.deterministic hy')

end MessageIdl.Peg
