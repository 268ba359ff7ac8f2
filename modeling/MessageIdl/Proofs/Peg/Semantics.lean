import MessageIdl.Peg.Run

/-!
# Declarative meaning of parsing expressions

What an expression yields at a cursor, as a big-step relation with one group of rules for each kind
of expression.  There is no state and no bound on nesting in it: failures that are worth reporting
and the depth of calls belong to the matcher only.

* `Outcome.Unmatched`: an outcome that is no match.
* `Yields`: the relation.
* `Cursor.Reaches`, `Yields.reaches`: a match ends behind some of the characters that were left.
* `Yields.seq_value`, `Yields.row_append`, `Yields.repeated_value`, `Yields.repeated_zero_ne_failed`:
  rows and rounds.
-/

namespace MessageIdl.Peg

open MessageIdl.Source

variable {α : Type}

/-- The outcomes that give no value. -/
def Outcome.Unmatched (o : Outcome α) : Prop := ∀ stop value, o ≠ .matched stop value

@[simp] theorem Outcome.unmatched_failed : (Outcome.failed : Outcome α).Unmatched := by
  intro stop v h
  cases h

@[simp] theorem Outcome.unmatched_raised (fault : Fault) :
    (Outcome.raised fault : Outcome α).Unmatched := by
  intro stop v h
  cases h

@[simp] theorem Outcome.unmatched_exhausted : (Outcome.exhausted : Outcome α).Unmatched := by
  intro stop v h
  cases h

/-- `Yields find lines e c o`: under the rules `find`, the expression `e` has the outcome `o` at `c`.

A repetition without a least number collects the rounds; any other one counts what that collects. -/
inductive Yields (find : String → Option (Expr α)) (lines : LineIndex) :
    Expr α → Cursor → Outcome α → Prop where
  | literal {text c} : text.toList <+: c.rest →
      Yields find lines (.literal text) c (.matched (c.advance text.length) (.text text))
  | literal_failed {text c} : ¬ text.toList <+: c.rest →
      Yields find lines (.literal text) c .failed
  | pattern {p c n} : p.scan c.rest = some n →
      Yields find lines (.pattern p) c
        (.matched (c.advance n) (.text (String.ofList (c.rest.take n))))
  | pattern_failed {p c} : p.scan c.rest = none → Yields find lines (.pattern p) c .failed
  | ref {name body c o} : find name = some body → Yields find lines body c o →
      Yields find lines (.ref name) c o
  | ref_undefined {name c} : find name = none →
      Yields find lines (.ref name) c (.raised (.undefinedRule name))
  | seq_nil {c} : Yields find lines (.seq []) c (.matched c (.list []))
  | seq_cons {e es c mid v stop vs} : Yields find lines e c (.matched mid v) →
      Yields find lines (.seq es) mid (.matched stop (.list vs)) →
      Yields find lines (.seq (e :: es)) c (.matched stop (.list (v :: vs)))
  | seq_stop {e es c o} : Yields find lines e c o → o.Unmatched →
      Yields find lines (.seq (e :: es)) c o
  | seq_later_stop {e es c mid v o} : Yields find lines e c (.matched mid v) →
      Yields find lines (.seq es) mid o → o.Unmatched → Yields find lines (.seq (e :: es)) c o
  | choice_nil {c} : Yields find lines (.choice []) c .failed
  | choice_commit {e es c o} : Yields find lines e c o → o ≠ .failed →
      Yields find lines (.choice (e :: es)) c o
  | choice_next {e es c o} : Yields find lines e c .failed → Yields find lines (.choice es) c o →
      Yields find lines (.choice (e :: es)) c o
  | round_last {e c} : Yields find lines e c .failed →
      Yields find lines (.repeated 0 e) c (.matched c (.list []))
  | round_empty {e c stop v} : Yields find lines e c (.matched stop v) → stop.offset = c.offset →
      Yields find lines (.repeated 0 e) c (.matched stop (.list [v]))
  | round_more {e c mid v stop vs} : Yields find lines e c (.matched mid v) →
      mid.offset ≠ c.offset → Yields find lines (.repeated 0 e) mid (.matched stop (.list vs)) →
      Yields find lines (.repeated 0 e) c (.matched stop (.list (v :: vs)))
  | round_raised {e c fault} : Yields find lines e c (.raised fault) →
      Yields find lines (.repeated 0 e) c (.raised fault)
  | round_later_raised {e c mid v fault} : Yields find lines e c (.matched mid v) →
      mid.offset ≠ c.offset → Yields find lines (.repeated 0 e) mid (.raised fault) →
      Yields find lines (.repeated 0 e) c (.raised fault)
  | repeated_enough {least e c stop vs} : least ≠ 0 →
      Yields find lines (.repeated 0 e) c (.matched stop (.list vs)) → least ≤ (vs.length : Int) →
      Yields find lines (.repeated least e) c (.matched stop (.list vs))
  | repeated_short {least e c stop vs} : least ≠ 0 →
      Yields find lines (.repeated 0 e) c (.matched stop (.list vs)) → (vs.length : Int) < least →
      Yields find lines (.repeated least e) c .failed
  | repeated_raised {least e c fault} : least ≠ 0 →
      Yields find lines (.repeated 0 e) c (.raised fault) →
      Yields find lines (.repeated least e) c (.raised fault)
  | optional_present {e c o} : Yields find lines e c o → o ≠ .failed →
      Yields find lines (.optional e) c o
  | optional_absent {e c} : Yields find lines e c .failed →
      Yields find lines (.optional e) c (.matched c .absent)
  | not_failed {e c} : Yields find lines e c .failed →
      Yields find lines (.not e) c (.matched c .absent)
  | not_matched {e c stop v} : Yields find lines e c (.matched stop v) →
      Yields find lines (.not e) c .failed
  | not_raised {e c fault} : Yields find lines e c (.raised fault) →
      Yields find lines (.not e) c (.raised fault)
  | action {act e c stop v built} : Yields find lines e c (.matched stop v) →
      act.build v.spread (lines.span c.offset stop.offset) = .ok built →
      Yields find lines (.action act e) c (.matched stop built)
  | action_raised {act e c stop v fault} : Yields find lines e c (.matched stop v) →
      act.build v.spread (lines.span c.offset stop.offset) = .error fault →
      Yields find lines (.action act e) c (.raised fault)
  | action_stop {act e c o} : Yields find lines e c o → o.Unmatched →
      Yields find lines (.action act e) c o
  | endOfInput {c} : c.rest = [] → Yields find lines .endOfInput c (.matched c .absent)
  | endOfInput_failed {c} : c.rest ≠ [] → Yields find lines .endOfInput c .failed
  | hole {c} : Yields find lines .hole c (.raised .hole)

/-! ### Cursors -/

/-- `stop` lies behind some of the characters that are left at `c`. -/
def Cursor.Reaches (c stop : Cursor) : Prop := ∃ n ≤ c.rest.length, stop = c.advance n

namespace Cursor

@[simp] theorem advance_offset (c : Cursor) (n : Nat) : (c.advance n).offset = c.offset + n := rfl

@[simp] theorem advance_rest (c : Cursor) (n : Nat) : (c.advance n).rest = c.rest.drop n := rfl

theorem advance_advance (c : Cursor) (m n : Nat) :
    (c.advance m).advance n = c.advance (m + n) := by
  simp only [advance, List.drop_drop, Nat.add_assoc]

theorem Reaches.refl (c : Cursor) : c.Reaches c := ⟨0, Nat.zero_le _, rfl⟩

theorem Reaches.trans {a b c : Cursor} (hab : a.Reaches b) (hbc : b.Reaches c) : a.Reaches c := by
  obtain ⟨m, hm, rfl⟩ := hab
  obtain ⟨n, hn, rfl⟩ := hbc
  rw [advance_rest, List.length_drop] at hn
  exact ⟨m + n, by omega, advance_advance a m n⟩

/-- Offsets grow by as much as the text that is left shrinks. -/
theorem Reaches.offset_add_length {c stop : Cursor} (h : c.Reaches stop) :
    stop.offset + stop.rest.length = c.offset + c.rest.length := by
  obtain ⟨n, hn, rfl⟩ := h
  rw [advance_offset, advance_rest, List.length_drop]
  omega

theorem Reaches.length_le {c stop : Cursor} (h : c.Reaches stop) :
    stop.rest.length ≤ c.rest.length := by
  obtain ⟨n, hn, rfl⟩ := h
  rw [advance_rest, List.length_drop]
  omega

/-- A cursor is told by what lies in front of it. -/
theorem Reaches.eq_advance {c stop : Cursor} {u : List Char} (h : c.Reaches stop)
    (hc : c.rest = u ++ stop.rest) : stop = c.advance u.length := by
  obtain ⟨n, hn, rfl⟩ := h
  have hlen := congrArg List.length hc
  rw [List.length_append, advance_rest, List.length_drop] at hlen
  rw [show n = u.length by omega]

/-- A cursor that was moved on has less text left. -/
theorem Reaches.length_lt {c stop : Cursor} (h : c.Reaches stop) (hne : stop.offset ≠ c.offset) :
    stop.rest.length < c.rest.length := by
  have hsum := h.offset_add_length
  have hle := h.length_le
  omega

end Cursor

namespace Yields

variable {find : String → Option (Expr α)} {lines : LineIndex} {e : Expr α} {c stop : Cursor}
  {o : Outcome α} {v : Value α}

/-- A match ends behind some of the characters that were left. -/
theorem reaches (h : Yields find lines e c (.matched stop v)) : c.Reaches stop := by
  generalize ho : Outcome.matched stop v = o at h
  induction h generalizing stop v with
  | literal hp =>
    cases ho
    exact ⟨_, hp.length_le, rfl⟩
  | pattern hs =>
    cases ho
    exact ⟨_, Pattern.scan_le _ _ _ hs, rfl⟩
  | ref _ _ ih => exact ih ho
  | seq_nil => cases ho; exact .refl _
  | seq_cons _ _ ih₁ ih₂ => cases ho; exact (ih₁ rfl).trans (ih₂ rfl)
  | seq_stop _ hu => exact absurd ho.symm (hu _ _)
  | seq_later_stop _ _ hu => exact absurd ho.symm (hu _ _)
  | choice_commit _ _ ih => exact ih ho
  | choice_next _ _ _ ih => exact ih ho
  | round_last _ => cases ho; exact .refl _
  | round_empty _ _ ih => cases ho; exact ih rfl
  | round_more _ _ _ ih₁ ih₂ => cases ho; exact (ih₁ rfl).trans (ih₂ rfl)
  | repeated_enough _ _ _ ih => cases ho; exact ih rfl
  | optional_present _ _ ih => exact ih ho
  | optional_absent _ => cases ho; exact .refl _
  | not_failed _ => cases ho; exact .refl _
  | action _ _ ih => cases ho; exact ih rfl
  | action_stop _ hu => exact absurd ho.symm (hu _ _)
  | endOfInput _ => cases ho; exact .refl _
  | _ => cases ho

/-- A sequence that matches gives a list. -/
theorem seq_value {es : List (Expr α)} (h : Yields find lines (.seq es) c (.matched stop v)) :
    ∃ vs, v = .list vs := by
  cases h with
  | seq_nil => exact ⟨_, rfl⟩
  | seq_cons => exact ⟨_, rfl⟩
  | seq_stop _ hu => exact absurd rfl (hu _ _)
  | seq_later_stop _ _ hu => exact absurd rfl (hu _ _)

/-- The items of a sequence that matches are matched one after the other. -/
theorem of_seq_cons {es : List (Expr α)}
    (h : Yields find lines (.seq (e :: es)) c (.matched stop v)) :
    ∃ mid x xs, Yields find lines e c (.matched mid x) ∧
      Yields find lines (.seq es) mid (.matched stop (.list xs)) ∧ v = .list (x :: xs) := by
  cases h with
  | seq_cons hx hxs => exact ⟨_, _, _, hx, hxs, rfl⟩
  | seq_stop _ hu => exact absurd rfl (hu _ _)
  | seq_later_stop _ _ hu => exact absurd rfl (hu _ _)

/-- Items in a row and then more items are matched as one row, by induction on the first items. -/
theorem row_append {es es' : List (Expr α)} {xs ys : List (Value α)} {mid : Cursor}
    (h : Yields find lines (.seq es) c (.matched mid (.list xs)))
    (h' : Yields find lines (.seq es') mid (.matched stop (.list ys))) :
    Yields find lines (.seq (es ++ es')) c (.matched stop (.list (xs ++ ys))) := by
  induction es generalizing c xs with
  | nil =>
    cases h with
    | seq_nil => exact h'
  | cons e es ih =>
    obtain ⟨_, x, xs', hx, hxs, hv⟩ := h.of_seq_cons
    cases hv
    exact .seq_cons hx (ih hxs)

/-- A repetition that matches gives a list. -/
theorem repeated_value {least : Int}
    (h : Yields find lines (.repeated least e) c (.matched stop v)) : ∃ vs, v = .list vs := by
  cases h <;> exact ⟨_, rfl⟩

/-- A repetition without a least number never fails. -/
theorem repeated_zero_ne_failed : ¬ Yields find lines (.repeated 0 e) c .failed := by
  intro h
  cases h with
  | repeated_short h0 => exact h0 rfl

end Yields

end MessageIdl.Peg
