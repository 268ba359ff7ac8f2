import MessageIdl.Proofs.Peg.Misses

/-!
# What is tried on the way

A run reaches expressions through sequences, alternatives, rounds, lookaheads and rules.  Which ones are
tried, and where, is told by the declarative meaning of what was tried before them, so that it is also
told about runs that never end.

* `Tries`: the relation.
* `Tries.reaches`: what is tried stands in the text that was left.
* `Raises`, `Yields.exists_raises`: a fault is the own answer of an expression that is tried.
* `Expr.Defined`, `Tries.defined`: where all references are defined, all that is tried refers to rules.
-/

namespace MessageIdl.Peg

open MessageIdl.Source

variable {α : Type}

/-- `Tries find lines e c e' c'`: while `e` is tried at `c`, `e'` is tried at `c'`, inside a lookahead or
not.  The items of a row that are still to come count as one expression. -/
inductive Tries (find : String → Option (Expr α)) (lines : LineIndex) :
    Expr α → Cursor → Expr α → Cursor → Prop where
  | self {e c} : Tries find lines e c e c
  | ref {name body c e' c'} : find name = some body → Tries find lines body c e' c' →
      Tries find lines (.ref name) c e' c'
  | seq_head {e es c e' c'} : Tries find lines e c e' c' → Tries find lines (.seq (e :: es)) c e' c'
  | seq_tail {e es c mid v e' c'} : Yields find lines e c (.matched mid v) →
      Tries find lines (.seq es) mid e' c' → Tries find lines (.seq (e :: es)) c e' c'
  | choice_head {e es c e' c'} : Tries find lines e c e' c' →
      Tries find lines (.choice (e :: es)) c e' c'
  | choice_next {e es c e' c'} : Yields find lines e c .failed →
      Tries find lines (.choice es) c e' c' → Tries find lines (.choice (e :: es)) c e' c'
  | round {least e c e' c'} : Tries find lines e c e' c' →
      Tries find lines (.repeated least e) c e' c'
  | round_more {least e c mid v e' c'} : Yields find lines e c (.matched mid v) →
      mid.offset ≠ c.offset → Tries find lines (.repeated least e) mid e' c' →
      Tries find lines (.repeated least e) c e' c'
  | optional {e c e' c'} : Tries find lines e c e' c' → Tries find lines (.optional e) c e' c'
  | not {e c e' c'} : Tries find lines e c e' c' → Tries find lines (.not e) c e' c'
  | action {act e c e' c'} : Tries find lines e c e' c' → Tries find lines (.action act e) c e' c'

/-- The expressions that raise a fault by themselves: a reference to no rule, a place where an expression
was left out, and an action that does not accept the values of a match. -/
inductive Raises (find : String → Option (Expr α)) (lines : LineIndex) :
    Expr α → Cursor → Fault → Prop where
  | undefinedRule {name c} : find name = none → Raises find lines (.ref name) c (.undefinedRule name)
  | hole {c} : Raises find lines .hole c .hole
  | action {act body c stop v fault} : Yields find lines body c (.matched stop v) →
      act.build v.spread (lines.span c.offset stop.offset) = .error fault →
      Raises find lines (.action act body) c fault

variable {find : String → Option (Expr α)} {lines : LineIndex} {e e' : Expr α} {es : List (Expr α)}
  {c c' : Cursor} {pos : Nat} {label : String} {fault : Fault}

/-- What is tried stands behind some of the characters that were left. -/
theorem Tries.reaches (h : Tries find lines e c e' c') : c.Reaches c' := by
  induction h with
  | self => exact .refl _
  | seq_tail hy _ ih => exact hy.reaches.trans ih
  | round_more hy _ _ ih => exact hy.reaches.trans ih
  | _ => assumption

/-- The rounds of a repetition do not depend on the least number of them. -/
theorem Tries.of_repeated {least least' : Int} (h : Tries find lines (.repeated least e) c e' c') :
    e' = .repeated least e ∨ Tries find lines (.repeated least' e) c e' c' := by
  generalize hr : Expr.repeated least e = r at h
  induction h with
  | self => exact .inl rfl
  | round h =>
    cases hr
    exact .inr (.round h)
  | round_more hy hne _ ih =>
    cases hr
    exact (ih rfl).imp_right (.round_more hy hne)
  | _ => cases hr

/-! ### Causes of faults -/

/-- **A fault is raised by something that is tried**, by induction on the derivation. -/
theorem Yields.exists_raises (h : Yields find lines e c (.raised fault)) :
    ∃ e' c', Tries find lines e c e' c' ∧ Raises find lines e' c' fault := by
  generalize ho : Outcome.raised fault = o at h
  induction h with
  | ref hf _ ih =>
    obtain ⟨e', c', ht, hr⟩ := ih ho
    exact ⟨e', c', .ref hf ht, hr⟩
  | ref_undefined hf =>
    cases ho
    exact ⟨_, _, .self, .undefinedRule hf⟩
  | seq_stop _ _ ih =>
    obtain ⟨e', c', ht, hr⟩ := ih ho
    exact ⟨e', c', .seq_head ht, hr⟩
  | seq_later_stop hy _ _ _ ih =>
    obtain ⟨e', c', ht, hr⟩ := ih ho
    exact ⟨e', c', .seq_tail hy ht, hr⟩
  | choice_commit _ _ ih =>
    obtain ⟨e', c', ht, hr⟩ := ih ho
    exact ⟨e', c', .choice_head ht, hr⟩
  | choice_next hy _ _ ih =>
    obtain ⟨e', c', ht, hr⟩ := ih ho
    exact ⟨e', c', .choice_next hy ht, hr⟩
  | round_raised _ ih =>
    cases ho
    obtain ⟨e', c', ht, hr⟩ := ih rfl
    exact ⟨e', c', .round ht, hr⟩
  | round_later_raised hy hne _ _ ih =>
    cases ho
    obtain ⟨e', c', ht, hr⟩ := ih rfl
    exact ⟨e', c', .round_more hy hne ht, hr⟩
  | repeated_raised _ _ ih =>
    cases ho
    obtain ⟨e', c', ht, hr⟩ := ih rfl
    rcases ht.of_repeated with rfl | ht
    · cases hr
    · exact ⟨e', c', ht, hr⟩
  | optional_present _ _ ih =>
    obtain ⟨e', c', ht, hr⟩ := ih ho
    exact ⟨e', c', .optional ht, hr⟩
  | not_raised _ ih =>
    cases ho
    obtain ⟨e', c', ht, hr⟩ := ih rfl
    exact ⟨e', c', .not ht, hr⟩
  | action_raised hy hb =>
    cases ho
    exact ⟨_, _, .self, .action hy hb⟩
  | action_stop _ _ ih =>
    obtain ⟨e', c', ht, hr⟩ := ih ho
    exact ⟨e', c', .action ht, hr⟩
  | hole =>
    cases ho
    exact ⟨_, _, .self, .hole⟩
  | _ => cases ho

/-! ### References to rules -/

/-- All names that an expression refers to have a meaning. -/
def Expr.Defined (find : String → Option (Expr α)) (e : Expr α) : Prop :=
  ∀ name ∈ e.refs, ∃ body, find name = some body

theorem Expr.Defined.seq_cons (h : (Expr.seq (e :: es)).Defined find) :
    e.Defined find ∧ (Expr.seq es).Defined find :=
  ⟨fun name hn => h name (List.mem_append_left _ hn), fun name hn => h name (List.mem_append_right _ hn)⟩

theorem Expr.Defined.choice_cons (h : (Expr.choice (e :: es)).Defined find) :
    e.Defined find ∧ (Expr.choice es).Defined find :=
  ⟨fun name hn => h name (List.mem_append_left _ hn), fun name hn => h name (List.mem_append_right _ hn)⟩

/-- **What is tried refers to rules**, if what it is tried for does and the rules do. -/
theorem Tries.defined (hrules : ∀ name body, find name = some body → body.Defined find)
    (h : Tries find lines e c e' c') (he : e.Defined find) : e'.Defined find := by
  induction h with
  | self => exact he
  | ref hf _ ih => exact ih (hrules _ _ hf)
  | seq_head _ ih => exact ih he.seq_cons.1
  | seq_tail _ _ ih => exact ih he.seq_cons.2
  | choice_head _ ih => exact ih he.choice_cons.1
  | choice_next _ _ ih => exact ih he.choice_cons.2
  | round _ ih => exact ih he
  | round_more _ _ _ ih => exact ih he
  | optional _ ih => exact ih he
  | not _ ih => exact ih he
  | action _ ih => exact ih he

end MessageIdl.Peg
