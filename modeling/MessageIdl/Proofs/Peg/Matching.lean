import MessageIdl.Proofs.Peg.Semantics

/-!
# Laws of matchers

Facts about the matcher of an expression that hold whatever the rules are, as long as the matcher for
the rules has them as well.

* `Matcher.Advances`: a match ends behind some of the characters that were left.
* `Matcher.Blind`: the outcome does not depend on the failures noted before.
* `Expr.run_advances`, `Expr.run_blind`: matchers of expressions have both properties.
* `repeatFrom_induct`: induction on the rounds of a repetition.
* `Expr.runSeq_eq`, `matchRepeat_eq`, `matchRepeat_zero_matched`: accumulators and the bound on
  rounds can be forgotten.
-/

namespace MessageIdl.Peg

open MessageIdl.Source

variable {α : Type}

/-- A match ends behind some of the characters that were left. -/
def Matcher.Advances (m : Matcher α) : Prop :=
  ∀ c w stop v, (m c w).1 = .matched stop v → c.Reaches stop

/-- The outcome is the same whatever was noted before. -/
def Matcher.Blind (m : Matcher α) : Prop := ∀ c w w', (m c w).1 = (m c w').1

/-- Puts values, latest first, in front of the values of a match. -/
def Outcome.after (values : List (Value α)) : Outcome α → Outcome α
  | .matched stop v => .matched stop (.list (values.reverse ++ v.spread))
  | o => o

/-- Counts the values of a match, `values` being found before, and fails if they are too few. -/
def Outcome.counted (least : Int) (values : List (Value α)) : Outcome α → Outcome α
  | .matched stop v =>
      if ((values.length + v.spread.length : Nat) : Int) < least then .failed
      else .matched stop (.list (values.reverse ++ v.spread))
  | o => o

@[simp] theorem Value.spread_list (vs : List (Value α)) : (Value.list vs).spread = vs := rfl

/-- Values can be put in front in two goes. -/
theorem Outcome.after_after (o : Outcome α) (v : Value α) (values : List (Value α)) :
    (o.after [v]).after values = o.after (v :: values) := by
  cases o with
  | matched stop x =>
    simp only [after, Value.spread_list, List.reverse_cons, List.reverse_nil, List.nil_append,
      List.append_assoc]
  | _ => rfl

/-- Values can be counted in two goes. -/
theorem Outcome.counted_counted (o : Outcome α) (least : Int) (v : Value α)
    (values : List (Value α)) :
    (o.counted 0 [v]).counted least values = o.counted least (v :: values) := by
  cases o with
  | matched stop x =>
    have h0 : ¬ (([v].length + x.spread.length : Nat) : Int) < 0 := by omega
    have hlen : values.length + ([v].reverse ++ x.spread).length
        = (v :: values).length + x.spread.length := by
      simp only [List.reverse_singleton, List.length_append, List.length_cons, List.length_nil]
      omega
    simp only [counted, if_neg h0, Value.spread_list, hlen]
    simp only [List.reverse_cons, List.reverse_nil, List.nil_append, List.append_assoc]
  | _ => rfl

/-! ### The rounds of a repetition, one at a time -/

section Steps

variable {m : Matcher α} {least : Int} {text : List Char} {values : List (Value α)}
  {c mid : Cursor} {w w' : Watch} {v : Value α}

theorem repeatFrom_failed (h : m c w = (.failed, w')) :
    repeatFrom least m text values c w = finishRepeat least values c w' := by
  rw [repeatFrom, h]

theorem repeatFrom_raised {fault : Fault} (h : m c w = (.raised fault, w')) :
    repeatFrom least m text values c w = (.raised fault, w') := by
  rw [repeatFrom, h]

theorem repeatFrom_exhausted (h : m c w = (.exhausted, w')) :
    repeatFrom least m text values c w = (.exhausted, w') := by
  rw [repeatFrom, h]

theorem repeatFrom_nil (h : m c w = (.matched mid v, w')) :
    repeatFrom least m [] values c w = finishRepeat least (v :: values) mid w' := by
  rw [repeatFrom, h]

theorem repeatFrom_cons {x : Char} (h : m c w = (.matched mid v, w')) :
    repeatFrom least m (x :: text) values c w
      = if mid.offset = c.offset then finishRepeat least (v :: values) mid w'
        else repeatFrom least m text (v :: values) mid w' := by
  rw [repeatFrom, h]

end Steps

theorem finishRepeat_of {P : Outcome α → Prop} {c : Cursor} (short : P .failed)
    (enough : ∀ vs, P (.matched c (.list vs))) (least : Int) (values : List (Value α)) (w : Watch) :
    P (finishRepeat least values c w).1 := by
  unfold finishRepeat
  split
  · exact short
  · exact enough _

/-- **Induction on rounds.**  What holds of both ways to end, and of a round if it holds of what
follows it, holds of a repetition. -/
theorem repeatFrom_induct {m : Matcher α} {least : Int} {P : Cursor → Outcome α → Prop}
    (short : ∀ c, P c .failed) (enough : ∀ c vs, P c (.matched c (.list vs)))
    (more : ∀ c w mid v w' o, m c w = (.matched mid v, w') → P mid o → P c o)
    (raised : ∀ c w fault w', m c w = (.raised fault, w') → P c (.raised fault))
    (exhausted : ∀ c w w', m c w = (.exhausted, w') → P c .exhausted) (text : List Char) :
    ∀ (values : List (Value α)) (c : Cursor) (w : Watch),
      P c (repeatFrom least m text values c w).1 := by
  have finish (c : Cursor) := finishRepeat_of (short c) (enough c) least
  induction text with
  | nil =>
    intro values c w
    rcases hx : m c w with ⟨o, w'⟩
    cases o with
    | failed => rw [repeatFrom_failed hx]; exact finish c values w'
    | matched mid v => rw [repeatFrom_nil hx]; exact more c w mid v w' _ hx (finish mid _ w')
    | raised fault => rw [repeatFrom_raised hx]; exact raised c w fault w' hx
    | exhausted => rw [repeatFrom_exhausted hx]; exact exhausted c w w' hx
  | cons _ text ih =>
    intro values c w
    rcases hx : m c w with ⟨o, w'⟩
    cases o with
    | failed => rw [repeatFrom_failed hx]; exact finish c values w'
    | matched mid v =>
      rw [repeatFrom_cons hx]
      split
      · exact more c w mid v w' _ hx (finish mid _ w')
      · exact more c w mid v w' _ hx (ih _ mid w')
    | raised fault => rw [repeatFrom_raised hx]; exact raised c w fault w' hx
    | exhausted => rw [repeatFrom_exhausted hx]; exact exhausted c w w' hx

/-! ### Matches go forward -/

section Advances

variable {m : Matcher α}

theorem matchLiteral_advances (text : String) : (matchLiteral text : Matcher α).Advances := by
  intro c w stop v h
  unfold matchLiteral at h
  split at h
  · rename_i hp
    cases h
    exact ⟨_, (List.isPrefixOf_iff_prefix.mp hp).length_le, rfl⟩
  · cases h

theorem matchPattern_advances (p : Pattern) : (matchPattern p : Matcher α).Advances := by
  intro c w stop v h
  unfold matchPattern at h
  split at h
  · rename_i n hs
    cases h
    exact ⟨n, p.scan_le _ _ hs, rfl⟩
  · cases h

theorem matchEnd_advances : (matchEnd : Matcher α).Advances := by
  intro c w stop v h
  unfold matchEnd at h
  split at h <;> cases h
  exact .refl c

theorem matchOptional_advances (hm : m.Advances) : (matchOptional m).Advances := by
  intro c w stop v h
  unfold matchOptional at h
  split at h
  · cases h
    exact .refl c
  · exact hm c w stop v h

theorem matchNot_advances (label : String) : (matchNot label m).Advances := by
  intro c w stop v h
  unfold matchNot at h
  split at h <;> cases h
  exact .refl c

theorem matchAction_advances (lines : LineIndex) (act : Action α) (hm : m.Advances) :
    (matchAction lines act m).Advances := by
  intro c w stop v h
  unfold matchAction at h
  split at h
  · rename_i mid x w' hx
    split at h <;> cases h
    exact hm c w stop x (congrArg Prod.fst hx)
  · exact hm c w stop v h

theorem repeatFrom_advances (least : Int) (hm : m.Advances) (text : List Char)
    (values : List (Value α)) : (repeatFrom least m text values).Advances := by
  intro c w
  refine repeatFrom_induct (P := fun c o => ∀ stop v, o = .matched stop v → c.Reaches stop)
    (fun c stop v h => ?_) (fun c vs stop v h => ?_) (fun c w mid x w' o hx ih stop v h => ?_)
    (fun c w fault w' _ stop v h => ?_) (fun c w w' _ stop v h => ?_) text values c w
  · cases h
  · cases h
    exact .refl c
  · exact (hm c w mid x (congrArg Prod.fst hx)).trans (ih stop v h)
  · cases h
  · cases h

end Advances

namespace Expr

variable {call : String → Matcher α} {lines : LineIndex}

mutual

/-- The matches of an expression go forward if those of the rules do. -/
theorem run_advances (hcall : ∀ name, (call name).Advances) :
    ∀ e : Expr α, (e.run call lines).Advances
  | .literal text => by rw [run]; exact matchLiteral_advances text
  | .pattern p => by rw [run]; exact matchPattern_advances p
  | .seq items => by rw [run]; exact runSeq_advances hcall items []
  | .choice alternatives => by rw [run]; exact runChoice_advances hcall alternatives
  | .repeated least body => by
      rw [run]
      intro c w
      exact repeatFrom_advances least (run_advances hcall body) c.rest [] c w
  | .optional body => by rw [run]; exact matchOptional_advances (run_advances hcall body)
  | .not body => by rw [run]; exact matchNot_advances _
  | .ref name => by rw [run]; exact hcall name
  | .action act body => by rw [run]; exact matchAction_advances lines act (run_advances hcall body)
  | .endOfInput => by rw [run]; exact matchEnd_advances
  | .hole => by intro c w stop v h; cases h

theorem runSeq_advances (hcall : ∀ name, (call name).Advances) :
    ∀ (items : List (Expr α)) (values : List (Value α)),
      (runSeq call lines items values).Advances
  | [], values => by
      intro c w stop v h
      cases h
      exact .refl c
  | item :: items, values => by
      intro c w stop v h
      simp only [runSeq] at h
      split at h
      · rename_i mid x w' hx
        have hmid : c.Reaches mid := run_advances hcall item c w mid x (congrArg Prod.fst hx)
        exact hmid.trans (runSeq_advances hcall items (x :: values) mid w' stop v h)
      · exact run_advances hcall item c w stop v h

theorem runChoice_advances (hcall : ∀ name, (call name).Advances) :
    ∀ alternatives : List (Expr α), (runChoice call lines alternatives).Advances
  | [] => by intro c w stop v h; cases h
  | alternative :: alternatives => by
      intro c w stop v h
      simp only [runChoice] at h
      split at h
      · exact runChoice_advances hcall alternatives c _ stop v h
      · exact run_advances hcall alternative c w stop v h

end

end Expr

theorem callRule_advances (find : String → Option (Expr α)) (lines : LineIndex) (depth : Nat) :
    ∀ name, (callRule find lines depth name).Advances := by
  induction depth with
  | zero => intro name c w stop v h; cases h
  | succ depth ih =>
    intro name c w stop v h
    cases hf : find name with
    | none => simp only [callRule, hf] at h; cases h
    | some body =>
      simp only [callRule, hf] at h
      exact Expr.run_advances ih body c w stop v h

/-- The matches of an expression go forward, with the rules of any table. -/
theorem Expr.run_callRule_advances {find : String → Option (Expr α)} {lines : LineIndex}
    {depth : Nat} (e : Expr α) : (e.run (callRule find lines depth) lines).Advances :=
  e.run_advances (callRule_advances find lines depth)

/-! ### Outcomes do not depend on what was noted before -/

section Blind

variable {m : Matcher α}

theorem matchLiteral_blind (text : String) : (matchLiteral text : Matcher α).Blind := by
  intro c w w'
  unfold matchLiteral
  split <;> rfl

theorem matchPattern_blind (p : Pattern) : (matchPattern p : Matcher α).Blind := by
  intro c w w'
  unfold matchPattern
  split <;> rfl

theorem matchEnd_blind : (matchEnd : Matcher α).Blind := by
  intro c w w'
  unfold matchEnd
  split <;> rfl

/-- Two runs of a blind matcher from one cursor end alike, each with its own failures. -/
theorem Matcher.Blind.exists_outcome (hm : m.Blind) (c : Cursor) (w w' : Watch) :
    ∃ o v v', m c w = (o, v) ∧ m c w' = (o, v') :=
  ⟨(m c w).1, (m c w).2, (m c w').2, rfl, by rw [hm c w w']⟩

theorem matchOptional_blind (hm : m.Blind) : (matchOptional m).Blind := by
  intro c w w'
  obtain ⟨o, v, v', h, h'⟩ := hm.exists_outcome c w w'
  cases o <;> simp only [matchOptional, h, h']

theorem matchNot_blind (label : String) (hm : m.Blind) : (matchNot label m).Blind := by
  intro c w w'
  obtain ⟨o, v, v', h, h'⟩ := hm.exists_outcome c w.mute w'.mute
  cases o <;> simp only [matchNot, h, h']

theorem matchAction_blind (lines : LineIndex) (act : Action α) (hm : m.Blind) :
    (matchAction lines act m).Blind := by
  intro c w w'
  obtain ⟨o, v, v', h, h'⟩ := hm.exists_outcome c w w'
  cases o with
  | matched stop x => simp only [matchAction, h, h']; split <;> rfl
  | _ => simp only [matchAction, h, h']

theorem finishRepeat_blind (least : Int) (values : List (Value α)) :
    Matcher.Blind (finishRepeat least values) := by
  intro c w w'
  unfold finishRepeat
  split <;> rfl

theorem repeatFrom_blind (least : Int) (hm : m.Blind) (text : List Char) :
    ∀ values : List (Value α), (repeatFrom least m text values).Blind := by
  induction text with
  | nil =>
    intro values c w w'
    obtain ⟨o, v, v', h, h'⟩ := hm.exists_outcome c w w'
    cases o with
    | failed => rw [repeatFrom_failed h, repeatFrom_failed h']; exact finishRepeat_blind _ _ _ _ _
    | matched mid x => rw [repeatFrom_nil h, repeatFrom_nil h']; exact finishRepeat_blind _ _ _ _ _
    | raised fault => rw [repeatFrom_raised h, repeatFrom_raised h']
    | exhausted => rw [repeatFrom_exhausted h, repeatFrom_exhausted h']
  | cons _ text ih =>
    intro values c w w'
    obtain ⟨o, v, v', h, h'⟩ := hm.exists_outcome c w w'
    cases o with
    | failed => rw [repeatFrom_failed h, repeatFrom_failed h']; exact finishRepeat_blind _ _ _ _ _
    | matched mid x =>
      rw [repeatFrom_cons h, repeatFrom_cons h']
      split
      · exact finishRepeat_blind _ _ _ _ _
      · exact ih _ _ _ _
    | raised fault => rw [repeatFrom_raised h, repeatFrom_raised h']
    | exhausted => rw [repeatFrom_exhausted h, repeatFrom_exhausted h']

end Blind

namespace Expr

variable {call : String → Matcher α} {lines : LineIndex}

mutual

/-- The outcome of an expression does not depend on what was noted before if those of the rules do
not. -/
theorem run_blind (hcall : ∀ name, (call name).Blind) : ∀ e : Expr α, (e.run call lines).Blind
  | .literal text => by rw [run]; exact matchLiteral_blind text
  | .pattern p => by rw [run]; exact matchPattern_blind p
  | .seq items => by rw [run]; exact runSeq_blind hcall items []
  | .choice alternatives => by rw [run]; exact runChoice_blind hcall alternatives
  | .repeated least body => by
      rw [run]
      intro c w w'
      exact repeatFrom_blind least (run_blind hcall body) c.rest [] c w w'
  | .optional body => by rw [run]; exact matchOptional_blind (run_blind hcall body)
  | .not body => by rw [run]; exact matchNot_blind _ (run_blind hcall body)
  | .ref name => by rw [run]; exact hcall name
  | .action act body => by rw [run]; exact matchAction_blind lines act (run_blind hcall body)
  | .endOfInput => by rw [run]; exact matchEnd_blind
  | .hole => by intro c w w'; rfl

theorem runSeq_blind (hcall : ∀ name, (call name).Blind) :
    ∀ (items : List (Expr α)) (values : List (Value α)), (runSeq call lines items values).Blind
  | [], values => by intro c w w'; rfl
  | item :: items, values => by
      intro c w w'
      obtain ⟨o, v, v', h, h'⟩ := (run_blind hcall item).exists_outcome c w w'
      cases o with
      | matched stop x =>
        simp only [runSeq, h, h']
        exact runSeq_blind hcall items (x :: values) stop v v'
      | _ => simp only [runSeq, h, h']

theorem runChoice_blind (hcall : ∀ name, (call name).Blind) :
    ∀ alternatives : List (Expr α), (runChoice call lines alternatives).Blind
  | [] => by intro c w w'; rfl
  | alternative :: alternatives => by
      intro c w w'
      obtain ⟨o, v, v', h, h'⟩ := (run_blind hcall alternative).exists_outcome c w w'
      cases o with
      | failed =>
        simp only [runChoice, h, h']
        exact runChoice_blind hcall alternatives c v v'
      | _ => simp only [runChoice, h, h']

end

end Expr

theorem callRule_blind (find : String → Option (Expr α)) (lines : LineIndex) (depth : Nat) :
    ∀ name, (callRule find lines depth name).Blind := by
  induction depth with
  | zero => intro name c w w'; rfl
  | succ depth ih =>
    intro name c w w'
    cases hf : find name with
    | none => simp only [callRule, hf]
    | some body =>
      simp only [callRule, hf]
      exact Expr.run_blind ih body c w w'

/-! ### Accumulators and the bound on rounds -/

/-- The values found before a sequence only stand in front of its own. -/
theorem Expr.runSeq_eq (call : String → Matcher α) (lines : LineIndex) (items : List (Expr α)) :
    ∀ (values : List (Value α)) (c : Cursor) (w : Watch),
      (runSeq call lines items values c w).1 = (runSeq call lines items [] c w).1.after values := by
  induction items with
  | nil =>
    intro values c w
    simp only [runSeq, Outcome.after, Value.spread_list, List.reverse_nil, List.append_nil]
  | cons item items ih =>
    intro values c w
    rcases h : run call lines item c w with ⟨o, w'⟩
    cases o with
    | matched mid v =>
      simp only [runSeq, h]
      rw [ih (v :: values), ih [v], Outcome.after_after]
    | _ => simp only [runSeq, h, Outcome.after]

section Rounds

variable {m : Matcher α}

theorem finishRepeat_eq (least : Int) (values : List (Value α)) (c : Cursor) (w : Watch) :
    (finishRepeat least values c w).1
      = (Outcome.matched c (.list [])).counted least values := by
  unfold finishRepeat
  simp only [Outcome.counted, Value.spread_list, List.length_nil, Nat.add_zero, List.append_nil]
  split <;> rfl

/-- The values found before a repetition and its least number matter at the end only. -/
theorem repeatFrom_eq (m : Matcher α) (text : List Char) :
    ∀ (least : Int) (values : List (Value α)) (c : Cursor) (w : Watch),
      (repeatFrom least m text values c w).1
        = (repeatFrom 0 m text [] c w).1.counted least values := by
  induction text with
  | nil =>
    intro least values c w
    rcases h : m c w with ⟨o, w'⟩
    cases o with
    | failed =>
      rw [repeatFrom_failed h, repeatFrom_failed h, finishRepeat_eq, finishRepeat_eq]
      rfl
    | matched mid v =>
      rw [repeatFrom_nil h, repeatFrom_nil h, finishRepeat_eq, finishRepeat_eq,
        Outcome.counted_counted]
    | raised fault => rw [repeatFrom_raised h, repeatFrom_raised h]; rfl
    | exhausted => rw [repeatFrom_exhausted h, repeatFrom_exhausted h]; rfl
  | cons x text ih =>
    intro least values c w
    rcases h : m c w with ⟨o, w'⟩
    cases o with
    | failed =>
      rw [repeatFrom_failed h, repeatFrom_failed h, finishRepeat_eq, finishRepeat_eq]
      rfl
    | matched mid v =>
      rw [repeatFrom_cons h, repeatFrom_cons h]
      split
      · rw [finishRepeat_eq, finishRepeat_eq, Outcome.counted_counted]
      · rw [ih least (v :: values), ih 0 [v], Outcome.counted_counted]
    | raised fault => rw [repeatFrom_raised h, repeatFrom_raised h]; rfl
    | exhausted => rw [repeatFrom_exhausted h, repeatFrom_exhausted h]; rfl

/-- Any text that is no shorter than what is left allows for enough rounds. -/
theorem repeatFrom_bound (hm : m.Advances) (least : Int) (text : List Char) :
    ∀ (text' : List Char) (values : List (Value α)) (c : Cursor) (w : Watch),
      c.rest.length ≤ text.length → c.rest.length ≤ text'.length →
      repeatFrom least m text values c w = repeatFrom least m text' values c w := by
  induction text with
  | nil =>
    intro text' values c w hle hle'
    rcases h : m c w with ⟨o, w'⟩
    cases o with
    | failed => rw [repeatFrom_failed h, repeatFrom_failed h]
    | matched mid v =>
      have hmid : mid.offset = c.offset := by
        have hr : c.Reaches mid := hm c w mid v (congrArg Prod.fst h)
        have hsum := hr.offset_add_length
        rw [List.length_nil] at hle
        have := hr.length_le
        omega
      cases text' with
      | nil => rfl
      | cons x text' => rw [repeatFrom_nil h, repeatFrom_cons h, if_pos hmid]
    | raised fault => rw [repeatFrom_raised h, repeatFrom_raised h]
    | exhausted => rw [repeatFrom_exhausted h, repeatFrom_exhausted h]
  | cons x text ih =>
    intro text' values c w hle hle'
    rcases h : m c w with ⟨o, w'⟩
    cases o with
    | failed => rw [repeatFrom_failed h, repeatFrom_failed h]
    | matched mid v =>
      have hr : c.Reaches mid := hm c w mid v (congrArg Prod.fst h)
      cases text' with
      | nil =>
        have hmid : mid.offset = c.offset := by
          have hsum := hr.offset_add_length
          rw [List.length_nil] at hle'
          have := hr.length_le
          omega
        rw [repeatFrom_nil h, repeatFrom_cons h, if_pos hmid]
      | cons x' text' =>
        rw [repeatFrom_cons h, repeatFrom_cons h]
        split
        · rfl
        · rename_i hne
          have hlt := hr.length_lt hne
          simp only [List.length_cons] at hle hle'
          exact ih text' (v :: values) mid w' (by omega) (by omega)
    | raised fault => rw [repeatFrom_raised h, repeatFrom_raised h]
    | exhausted => rw [repeatFrom_exhausted h, repeatFrom_exhausted h]

/-- A least number only counts what the repetition without one collects. -/
theorem matchRepeat_eq (least : Int) (m : Matcher α) (c : Cursor) (w : Watch) :
    (matchRepeat least m c w).1 = (matchRepeat 0 m c w).1.counted least [] :=
  repeatFrom_eq m c.rest least [] c w

/-- **One round of a repetition.**  After a match that takes something the repetition goes on behind
it, with no trace of a bound on the number of rounds. -/
theorem matchRepeat_zero_matched (hm : m.Advances) {c mid : Cursor} {w w' : Watch} {v : Value α}
    (h : m c w = (.matched mid v, w')) (hne : mid.offset ≠ c.offset) :
    (matchRepeat 0 m c w).1 = (matchRepeat 0 m mid w').1.after [v] := by
  have hr : c.Reaches mid := hm c w mid v (congrArg Prod.fst h)
  have hlt := hr.length_lt hne
  show (repeatFrom 0 m c.rest [] c w).1 = (repeatFrom 0 m mid.rest [] mid w').1.after [v]
  rcases hrest : c.rest with _ | ⟨x, text⟩
  · rw [hrest] at hlt
    exact absurd hlt (Nat.not_lt_zero _)
  · rw [hrest, List.length_cons] at hlt
    rw [repeatFrom_cons h, if_neg hne, repeatFrom_bound hm 0 text mid.rest [v] mid w' (by omega)
      (Nat.le_refl _), repeatFrom_eq m mid.rest 0 [v]]
    cases (repeatFrom 0 m mid.rest [] mid w').1 with
    | matched stop x =>
      have h0 : ¬ (([v].length + x.spread.length : Nat) : Int) < 0 := by omega
      rw [Outcome.counted, if_neg h0, Outcome.after]
    | _ => rfl

/-- A round that takes nothing is the last one. -/
theorem matchRepeat_zero_empty (c : Cursor) {mid : Cursor} {w w' : Watch} {v : Value α}
    (h : m c w = (.matched mid v, w')) (hmid : mid.offset = c.offset) :
    matchRepeat 0 m c w = (.matched mid (.list [v]), w') := by
  show repeatFrom 0 m c.rest [] c w = _
  cases c.rest with
  | nil => rw [repeatFrom_nil h]; rfl
  | cons x text => rw [repeatFrom_cons h, if_pos hmid]; rfl

end Rounds

end MessageIdl.Peg
