import MessageIdl.Proofs.Peg.Semantics

/-!
# Where faults come from

A fault can have three causes: a reference to no rule, an expression that was left out, and an action
that does not accept its values.  The first two show in the text of the rules.

* `Expr.actions`: the actions of an expression with the expressions they are bound to.
* `Expr.Closed`: all references are defined and nothing was left out.
* `Yields.raised_by_action`: under closed rules, a fault is the answer of an action to the values of
  some match.
-/

namespace MessageIdl.Peg

open MessageIdl.Source

variable {α : Type}

namespace Expr

mutual

/-- The actions of an expression, at any depth, each with what it is bound to. -/
def actions : Expr α → List (Action α × Expr α)
  | .seq items => actionsOfParts items
  | .choice alternatives => actionsOfParts alternatives
  | .repeated _ body => actions body
  | .optional body => actions body
  | .not body => actions body
  | .action act body => (act, body) :: actions body
  | _ => []

/-- The actions of the parts of a compound expression. -/
def actionsOfParts : List (Expr α) → List (Action α × Expr α)
  | [] => []
  | e :: rest => actions e ++ actionsOfParts rest

end

mutual

/-- Whether no part of an expression was left out. -/
def whole : Expr α → Bool
  | .seq items => wholeParts items
  | .choice alternatives => wholeParts alternatives
  | .repeated _ body => whole body
  | .optional body => whole body
  | .not body => whole body
  | .action _ body => whole body
  | .hole => false
  | _ => true

/-- Whether no part of the parts of a compound expression was left out. -/
def wholeParts : List (Expr α) → Bool
  | [] => true
  | e :: rest => whole e && wholeParts rest

end

/-- All references of an expression are defined and no part of it was left out. -/
def Closed (find : String → Option (Expr α)) (e : Expr α) : Prop :=
  (∀ name ∈ e.refs, ∃ body, find name = some body) ∧ e.whole = true

variable {find : String → Option (Expr α)} {e : Expr α} {es : List (Expr α)}

theorem Closed.seq_cons (h : (Expr.seq (e :: es)).Closed find) :
    e.Closed find ∧ (Expr.seq es).Closed find := by
  obtain ⟨href, hwhole⟩ := h
  simp only [refs, refsOfParts, List.mem_append, whole, wholeParts, Bool.and_eq_true] at href hwhole
  exact ⟨⟨fun name hn => href name (.inl hn), hwhole.1⟩,
    ⟨fun name hn => href name (.inr hn), hwhole.2⟩⟩

theorem Closed.choice_cons (h : (Expr.choice (e :: es)).Closed find) :
    e.Closed find ∧ (Expr.choice es).Closed find := by
  obtain ⟨href, hwhole⟩ := h
  simp only [refs, refsOfParts, List.mem_append, whole, wholeParts, Bool.and_eq_true] at href hwhole
  exact ⟨⟨fun name hn => href name (.inl hn), hwhole.1⟩,
    ⟨fun name hn => href name (.inr hn), hwhole.2⟩⟩

end Expr

variable {find : String → Option (Expr α)} {lines : LineIndex}

/-- `fault` is the answer of an action, of `e` or of a rule, to the values of a match of what it is
bound to. -/
def RaisedByAction (find : String → Option (Expr α)) (lines : LineIndex) (e : Expr α)
    (fault : Fault) : Prop :=
  ∃ act body,
    ((act, body) ∈ e.actions ∨ ∃ name rule, find name = some rule ∧ (act, body) ∈ rule.actions) ∧
    ∃ c stop v, Yields find lines body c (.matched stop v) ∧
      act.build v.spread (lines.span c.offset stop.offset) = .error fault

/-- The actions of a part are actions of the whole. -/
theorem RaisedByAction.mono {e part : Expr α} {fault : Fault}
    (hsub : ∀ a ∈ part.actions, a ∈ e.actions) (h : RaisedByAction find lines part fault) :
    RaisedByAction find lines e fault := by
  obtain ⟨act, body, hmem, hraise⟩ := h
  exact ⟨act, body, hmem.imp_left (hsub _), hraise⟩

/-- **Under closed rules only actions raise faults.** -/
theorem Yields.raised_by_action (hrules : ∀ name body, find name = some body → body.Closed find)
    {e : Expr α} {c : Cursor} {fault : Fault} (he : e.Closed find)
    (h : Yields find lines e c (.raised fault)) : RaisedByAction find lines e fault := by
  generalize ho : Outcome.raised fault = o at h
  induction h with
  | ref hf _ ih =>
    obtain ⟨act, body, hmem, hraise⟩ := ih (hrules _ _ hf) ho
    refine ⟨act, body, .inr ?_, hraise⟩
    rcases hmem with hmem | hmem
    · exact ⟨_, _, hf, hmem⟩
    · exact hmem
  | ref_undefined hf =>
    obtain ⟨body, hb⟩ := he.1 _ List.mem_cons_self
    rw [hf] at hb
    cases hb
  | seq_stop _ _ ih =>
    exact RaisedByAction.mono (fun a => List.mem_append_left _) (ih he.seq_cons.1 ho)
  | seq_later_stop _ _ _ _ ih =>
    exact RaisedByAction.mono (fun a => List.mem_append_right _) (ih he.seq_cons.2 ho)
  | choice_commit _ _ ih =>
    exact RaisedByAction.mono (fun a => List.mem_append_left _) (ih he.choice_cons.1 ho)
  | choice_next _ _ _ ih =>
    exact RaisedByAction.mono (fun a => List.mem_append_right _) (ih he.choice_cons.2 ho)
  | round_raised _ ih => exact ih he ho
  | round_later_raised _ _ _ _ ih => exact ih he ho
  | repeated_raised _ _ ih => exact ih he ho
  | optional_present _ _ ih => exact ih he ho
  | not_raised _ ih => exact ih he ho
  | action_stop _ _ ih => exact RaisedByAction.mono (fun a => List.mem_cons_of_mem _) (ih he ho)
  | action_raised hy hb =>
    cases ho
    exact ⟨_, _, .inl List.mem_cons_self, _, _, _, hy, hb⟩
  | hole => exact absurd he.2 (by simp [Expr.whole])
  | _ => cases ho

end MessageIdl.Peg
