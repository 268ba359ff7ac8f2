import MessageIdl.Proofs.Peg.Watching

/-!
# Bounds on nested calls

A matcher answers at a place if the bound on nested calls is not reached there.  What is put together
from matchers that answer answers as well.

* `Matcher.AnswersAt`: the property.
* `matchRepeat_answersAt`: rounds that answer from a place on.
-/

namespace MessageIdl.Peg

open MessageIdl.Source

variable {α : Type}

/-- At `c` there is an outcome within the bound on nested calls. -/
def Matcher.AnswersAt (m : Matcher α) (c : Cursor) : Prop := ∀ w, (m c w).1 ≠ .exhausted

variable {m : Matcher α} {c : Cursor}

theorem matchLiteral_answersAt (text : String) : (matchLiteral text : Matcher α).AnswersAt c := by
  intro w
  unfold matchLiteral
  split <;> simp

theorem matchPattern_answersAt (p : Pattern) : (matchPattern p : Matcher α).AnswersAt c := by
  intro w
  unfold matchPattern
  split <;> simp

theorem matchEnd_answersAt : (matchEnd : Matcher α).AnswersAt c := by
  intro w
  unfold matchEnd
  split <;> simp

theorem matchOptional_answersAt (hm : m.AnswersAt c) : (matchOptional m).AnswersAt c := by
  intro w
  unfold matchOptional
  split
  · simp
  · exact hm w

theorem matchNot_answersAt (label : String) (hm : m.AnswersAt c) : (matchNot label m).AnswersAt c := by
  intro w
  have h := hm w.mute
  rcases hx : m c w.mute with ⟨o, w'⟩
  rw [hx] at h
  cases o with
  | exhausted => exact absurd rfl h
  | _ => simp [matchNot, hx]

theorem matchAction_answersAt (lines : LineIndex) (act : Action α) (hm : m.AnswersAt c) :
    (matchAction lines act m).AnswersAt c := by
  intro w
  unfold matchAction
  split
  · split <;> simp
  · exact hm w

/-- Rounds that answer from `c` on make up a repetition that answers, also if they take nothing. -/
theorem matchRepeat_answersAt (least : Int) (hadv : m.Advances)
    (hm : ∀ c', c.Reaches c' → m.AnswersAt c') : (matchRepeat least m).AnswersAt c := by
  intro w
  have finish (values : List (Value α)) (c : Cursor) (w : Watch) :
      (finishRepeat least values c w).1 ≠ .exhausted :=
    finishRepeat_of (P := (· ≠ .exhausted)) (by simp) (by simp) least values w
  refine repeatFrom_rounds (P := fun c' _ r => c.Reaches c' → r.1 ≠ .exhausted) hadv
    (fun _ _ w' _ values _ => finish values _ w') (fun _ _ _ _ w' _ _ values _ => finish values _ w')
    (fun c' w' mid v w'' r hx _ ih hr => ?_) (fun _ _ _ _ _ _ => by simp)
    (fun c' w' w'' hx hr => absurd (congrArg Prod.fst hx) (hm c' hr w'))
    c.rest [] c w (Nat.le_refl _) (.refl c)
  exact ih (hr.trans (hadv c' w' mid v (congrArg Prod.fst hx)))

end MessageIdl.Peg
