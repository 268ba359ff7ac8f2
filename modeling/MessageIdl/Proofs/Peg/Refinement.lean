import MessageIdl.Proofs.Peg.Faults
import MessageIdl.Proofs.Peg.Matching

/-!
# The matcher refines the declarative meaning

* `Expr.run_yields`, `callRule_yields`: an outcome of the matcher is yielded, unless the bound on
  nested calls was reached.
* `Yields.reached`: what is yielded is the outcome of the matcher, once enough nested calls are
  allowed.
* `Yields.deterministic`: an expression yields one outcome at most.
* `run_refines_yields`: all of this together.
-/

namespace MessageIdl.Peg

open MessageIdl.Source

variable {α : Type} {find : String → Option (Expr α)} {lines : LineIndex}

/-- `o` is yielded, if it is an outcome at all. -/
def Settled (find : String → Option (Expr α)) (lines : LineIndex) (e : Expr α) (c : Cursor)
    (o : Outcome α) : Prop := o = .exhausted ∨ Yields find lines e c o

/-! ### Outcomes of the matcher are yielded -/

section Soundness

variable {m : Matcher α} {e : Expr α}

theorem matchLiteral_settled (text : String) (c : Cursor) (w : Watch) :
    Settled find lines (.literal text) c (matchLiteral text c w).1 := by
  unfold matchLiteral
  split
  · rename_i hp
    exact .inr (.literal (List.isPrefixOf_iff_prefix.mp hp))
  · rename_i hp
    exact .inr (.literal_failed fun h => hp (List.isPrefixOf_iff_prefix.mpr h))

theorem matchPattern_settled (p : Pattern) (c : Cursor) (w : Watch) :
    Settled find lines (.pattern p) c (matchPattern p c w).1 := by
  unfold matchPattern
  split
  · rename_i n hs
    exact .inr (.pattern hs)
  · rename_i hs
    exact .inr (.pattern_failed hs)

theorem matchEnd_settled (c : Cursor) (w : Watch) :
    Settled find lines .endOfInput c (matchEnd c w).1 := by
  unfold matchEnd
  split
  · rename_i he
    exact .inr (.endOfInput (List.isEmpty_iff.mp he))
  · rename_i he
    exact .inr (.endOfInput_failed fun h => he (List.isEmpty_iff.mpr h))

theorem matchOptional_settled (hm : ∀ c w, Settled find lines e c (m c w).1) (c : Cursor)
    (w : Watch) : Settled find lines (.optional e) c (matchOptional m c w).1 := by
  have h := hm c w
  rcases hx : m c w with ⟨o, w'⟩
  rw [hx] at h
  cases o with
  | exhausted => simp only [matchOptional, hx]; exact .inl rfl
  | failed =>
    simp only [matchOptional, hx]
    exact .inr (.optional_absent (h.resolve_left (by simp)))
  | _ =>
    simp only [matchOptional, hx]
    exact .inr (.optional_present (h.resolve_left (by simp)) (by simp))

theorem matchNot_settled (label : String) (hm : ∀ c w, Settled find lines e c (m c w).1)
    (c : Cursor) (w : Watch) : Settled find lines (.not e) c (matchNot label m c w).1 := by
  have h := hm c w.mute
  rcases hx : m c w.mute with ⟨o, w'⟩
  rw [hx] at h
  cases o with
  | exhausted => simp only [matchNot, hx]; exact .inl rfl
  | failed => simp only [matchNot, hx]; exact .inr (.not_failed (h.resolve_left (by simp)))
  | matched stop v => simp only [matchNot, hx]; exact .inr (.not_matched (h.resolve_left (by simp)))
  | raised fault => simp only [matchNot, hx]; exact .inr (.not_raised (h.resolve_left (by simp)))

theorem matchAction_settled (act : Action α) (hm : ∀ c w, Settled find lines e c (m c w).1)
    (c : Cursor) (w : Watch) :
    Settled find lines (.action act e) c (matchAction lines act m c w).1 := by
  have h := hm c w
  rcases hx : m c w with ⟨o, w'⟩
  rw [hx] at h
  cases o with
  | exhausted => simp only [matchAction, hx]; exact .inl rfl
  | matched stop v =>
    have hy := h.resolve_left (by simp)
    simp only [matchAction, hx]
    split
    · rename_i built hb
      exact .inr (.action hy hb)
    · rename_i fault hb
      exact .inr (.action_raised hy hb)
  | _ =>
    simp only [matchAction, hx]
    exact .inr (.action_stop (h.resolve_left (by simp)) (by simp))

/-- The rounds of a repetition, by the length of what is left: each round takes something or is the
last one. -/
theorem matchRepeat_zero_settled (hadv : m.Advances)
    (hm : ∀ c w, Settled find lines e c (m c w).1) (n : Nat) :
    ∀ c w, c.rest.length = n → Settled find lines (.repeated 0 e) c (matchRepeat 0 m c w).1 := by
  induction n using Nat.strongRecOn with
  | _ n ih =>
    intro c w hn
    have h := hm c w
    rcases hx : m c w with ⟨o, w'⟩
    rw [hx] at h
    cases o with
    | exhausted => rw [matchRepeat, repeatFrom_exhausted hx]; exact .inl rfl
    | failed =>
      rw [matchRepeat, repeatFrom_failed hx]
      exact .inr (.round_last (h.resolve_left (by simp)))
    | raised fault =>
      rw [matchRepeat, repeatFrom_raised hx]
      exact .inr (.round_raised (h.resolve_left (by simp)))
    | matched mid v =>
      have hy := h.resolve_left (by simp)
      by_cases hmid : mid.offset = c.offset
      · rw [matchRepeat_zero_empty c hx hmid]
        exact .inr (.round_empty hy hmid)
      · have hlt := hy.reaches.length_lt hmid
        rw [matchRepeat_zero_matched hadv hx hmid]
        rcases ih mid.rest.length (by omega) mid w' rfl with hr | hr
        · rw [hr]
          exact .inl rfl
        · generalize (matchRepeat 0 m mid w').1 = o at hr
          cases o with
          | matched stop x =>
            obtain ⟨vs, rfl⟩ := hr.repeated_value
            exact .inr (.round_more hy hmid hr)
          | failed => exact absurd hr Yields.repeated_zero_ne_failed
          | raised fault => exact .inr (.round_later_raised hy hmid hr)
          | exhausted => exact .inl rfl

theorem matchRepeat_settled (least : Int) (hadv : m.Advances)
    (hm : ∀ c w, Settled find lines e c (m c w).1) (c : Cursor) (w : Watch) :
    Settled find lines (.repeated least e) c (matchRepeat least m c w).1 := by
  have h := matchRepeat_zero_settled hadv hm c.rest.length c w rfl
  by_cases h0 : least = 0
  · rw [h0]
    exact h
  · rw [matchRepeat_eq]
    rcases h with h | h
    · rw [h]
      exact .inl rfl
    · generalize (matchRepeat 0 m c w).1 = o at h
      cases o with
      | matched stop x =>
        obtain ⟨vs, rfl⟩ := h.repeated_value
        simp only [Outcome.counted, Value.spread_list, List.length_nil, Nat.zero_add,
          List.reverse_nil, List.nil_append]
        split
        · rename_i hlt
          exact .inr (.repeated_short h0 h hlt)
        · rename_i hlt
          exact .inr (.repeated_enough h0 h (by omega))
      | failed => exact absurd h Yields.repeated_zero_ne_failed
      | raised fault => exact .inr (.repeated_raised h0 h)
      | exhausted => exact .inl rfl

end Soundness

namespace Expr

variable {call : String → Matcher α}

mutual

/-- An outcome of an expression is yielded if those of the rules are. -/
theorem run_yields (hadv : ∀ name, (call name).Advances)
    (hcall : ∀ name c w, Settled find lines (.ref name) c (call name c w).1) :
    ∀ (e : Expr α) (c : Cursor) (w : Watch), Settled find lines e c (e.run call lines c w).1
  | .literal text, c, w => by rw [run]; exact matchLiteral_settled text c w
  | .pattern p, c, w => by rw [run]; exact matchPattern_settled p c w
  | .seq items, c, w => by rw [run]; exact runSeq_yields hadv hcall items c w
  | .choice alternatives, c, w => by rw [run]; exact runChoice_yields hadv hcall alternatives c w
  | .repeated least body, c, w => by
      rw [run]
      exact matchRepeat_settled least (run_advances hadv body) (run_yields hadv hcall body) c w
  | .optional body, c, w => by
      rw [run]
      exact matchOptional_settled (run_yields hadv hcall body) c w
  | .not body, c, w => by rw [run]; exact matchNot_settled _ (run_yields hadv hcall body) c w
  | .ref name, c, w => by rw [run]; exact hcall name c w
  | .action act body, c, w => by
      rw [run]
      exact matchAction_settled act (run_yields hadv hcall body) c w
  | .endOfInput, c, w => by rw [run]; exact matchEnd_settled c w
  | .hole, c, w => .inr .hole

theorem runSeq_yields (hadv : ∀ name, (call name).Advances)
    (hcall : ∀ name c w, Settled find lines (.ref name) c (call name c w).1) :
    ∀ (items : List (Expr α)) (c : Cursor) (w : Watch),
      Settled find lines (.seq items) c (runSeq call lines items [] c w).1
  | [], c, w => .inr .seq_nil
  | item :: items, c, w => by
      have h := run_yields hadv hcall item c w
      rcases hx : run call lines item c w with ⟨o, w'⟩
      rw [hx] at h
      cases o with
      | exhausted => simp only [runSeq, hx]; exact .inl rfl
      | matched mid v =>
        have hy := h.resolve_left (by simp)
        simp only [runSeq, hx]
        rw [runSeq_eq]
        have hrest := runSeq_yields hadv hcall items mid w'
        generalize (runSeq call lines items [] mid w').1 = o at hrest
        rcases hrest with rfl | hrest
        · exact .inl rfl
        · cases o with
          | matched stop x =>
            obtain ⟨vs, rfl⟩ := hrest.seq_value
            exact .inr (.seq_cons hy hrest)
          | _ => exact .inr (.seq_later_stop hy hrest (by simp [Outcome.after]))
      | _ =>
        simp only [runSeq, hx]
        exact .inr (.seq_stop (h.resolve_left (by simp)) (by simp))

theorem runChoice_yields (hadv : ∀ name, (call name).Advances)
    (hcall : ∀ name c w, Settled find lines (.ref name) c (call name c w).1) :
    ∀ (alternatives : List (Expr α)) (c : Cursor) (w : Watch),
      Settled find lines (.choice alternatives) c (runChoice call lines alternatives c w).1
  | [], c, w => .inr .choice_nil
  | alternative :: alternatives, c, w => by
      have h := run_yields hadv hcall alternative c w
      rcases hx : run call lines alternative c w with ⟨o, w'⟩
      rw [hx] at h
      cases o with
      | exhausted => simp only [runChoice, hx]; exact .inl rfl
      | failed =>
        simp only [runChoice, hx]
        rcases runChoice_yields hadv hcall alternatives c w' with hr | hr
        · exact .inl hr
        · exact .inr (.choice_next (h.resolve_left (by simp)) hr)
      | _ =>
        simp only [runChoice, hx]
        exact .inr (.choice_commit (h.resolve_left (by simp)) (by simp))

end

end Expr

/-- An outcome of a rule is yielded, whatever bound on nested calls there is. -/
theorem callRule_yields (find : String → Option (Expr α)) (lines : LineIndex) (depth : Nat) :
    ∀ name c w, Settled find lines (.ref name) c (callRule find lines depth name c w).1 := by
  induction depth with
  | zero => intro name c w; exact .inl rfl
  | succ depth ih =>
    intro name c w
    cases hf : find name with
    | none => simp only [callRule, hf]; exact .inr (.ref_undefined hf)
    | some body =>
      simp only [callRule, hf]
      rcases Expr.run_yields (callRule_advances find lines depth) ih body c w with h | h
      · exact .inl h
      · exact .inr (.ref hf h)

/-- A run that ends ends with what is yielded, with the rules of any table. -/
theorem Expr.run_callRule_yields {e : Expr α} {c : Cursor} {w : Watch} {depth : Nat}
    (h : (e.run (callRule find lines depth) lines c w).1 ≠ .exhausted) :
    Yields find lines e c (e.run (callRule find lines depth) lines c w).1 :=
  (e.run_yields (callRule_advances find lines depth) (callRule_yields find lines depth) c
    w).resolve_left h

/-! ### What is yielded is the outcome of the matcher -/

/-- With enough nested calls the matcher has the outcome `o`, whatever was noted before. -/
def Reached (find : String → Option (Expr α)) (lines : LineIndex) (e : Expr α) (c : Cursor)
    (o : Outcome α) : Prop :=
  ∃ enough, ∀ depth, enough ≤ depth → ∀ w, (e.run (callRule find lines depth) lines c w).1 = o

/-- Two runs with the depth of the deeper one. -/
theorem Reached.both {e e' : Expr α} {c c' : Cursor} {o o' : Outcome α}
    (h : Reached find lines e c o) (h' : Reached find lines e' c' o') :
    ∃ enough, ∀ depth, enough ≤ depth →
      (∀ w, ∃ w', e.run (callRule find lines depth) lines c w = (o, w')) ∧
      ∀ w, (e'.run (callRule find lines depth) lines c' w).1 = o' := by
  obtain ⟨n, hn⟩ := h
  obtain ⟨n', hn'⟩ := h'
  exact ⟨max n n', fun depth hd =>
    ⟨fun w => ⟨_, Prod.ext (hn depth (by omega) w) rfl⟩, hn' depth (by omega)⟩⟩

/-- A run with the failures it leaves. -/
theorem Reached.exists_watch {e : Expr α} {c : Cursor} {o : Outcome α}
    (h : Reached find lines e c o) :
    ∃ enough, ∀ depth, enough ≤ depth →
      ∀ w, ∃ w', e.run (callRule find lines depth) lines c w = (o, w') := by
  obtain ⟨n, hn⟩ := h
  exact ⟨n, fun depth hd w => ⟨_, Prod.ext (hn depth hd w) rfl⟩⟩

/-- What the run of a part determines, the run of the whole reaches. -/
theorem Reached.of_part {e part : Expr α} {c c' : Cursor} {o o' : Outcome α}
    (h : Reached find lines part c' o')
    (step : ∀ depth w, (∀ w, ∃ w', part.run (callRule find lines depth) lines c' w = (o', w')) →
      (e.run (callRule find lines depth) lines c w).1 = o) : Reached find lines e c o := by
  obtain ⟨n, hn⟩ := h.exists_watch
  exact ⟨n, fun depth hd w => step depth w (hn depth hd)⟩

/-- What the runs of two parts determine, the run of the whole reaches. -/
theorem Reached.of_parts {e part part' : Expr α} {c c₁ c₂ : Cursor} {o o₁ o₂ : Outcome α}
    (h₁ : Reached find lines part c₁ o₁) (h₂ : Reached find lines part' c₂ o₂)
    (step : ∀ depth w,
      (∀ w, ∃ w', part.run (callRule find lines depth) lines c₁ w = (o₁, w')) →
      (∀ w, (part'.run (callRule find lines depth) lines c₂ w).1 = o₂) →
      (e.run (callRule find lines depth) lines c w).1 = o) : Reached find lines e c o := by
  obtain ⟨n, hn⟩ := h₁.both h₂
  exact ⟨n, fun depth hd w => step depth w (hn depth hd).1 (hn depth hd).2⟩

/-- **What an expression yields, the matcher finds**, by induction on the derivation. -/
theorem Yields.reached {e : Expr α} {c : Cursor} {o : Outcome α} (h : Yields find lines e c o) :
    Reached find lines e c o := by
  induction h with
  | literal hp =>
    refine ⟨0, fun depth _ w => ?_⟩
    rw [Expr.run, matchLiteral, if_pos (List.isPrefixOf_iff_prefix.mpr hp)]
  | literal_failed hp =>
    refine ⟨0, fun depth _ w => ?_⟩
    rw [Expr.run, matchLiteral, if_neg fun h => hp (List.isPrefixOf_iff_prefix.mp h)]
  | pattern hs => exact ⟨0, fun depth _ w => by simp only [Expr.run, matchPattern, hs]⟩
  | pattern_failed hs => exact ⟨0, fun depth _ w => by simp only [Expr.run, matchPattern, hs]⟩
  | ref hf _ ih =>
    obtain ⟨n, hn⟩ := ih
    refine ⟨n + 1, fun depth hd w => ?_⟩
    obtain ⟨depth, rfl⟩ := Nat.exists_eq_add_of_le' (show 1 ≤ depth by omega)
    simp only [Expr.run, callRule, hf]
    exact hn depth (by omega) w
  | ref_undefined hf =>
    refine ⟨1, fun depth hd w => ?_⟩
    obtain ⟨depth, rfl⟩ := Nat.exists_eq_add_of_le' hd
    simp only [Expr.run, callRule, hf]
  | seq_nil => exact ⟨0, fun depth _ w => by simp only [Expr.run, Expr.runSeq]; rfl⟩
  | seq_cons _ _ ih₁ ih₂ =>
    refine ih₁.of_parts ih₂ fun depth w h₁ h₂ => ?_
    obtain ⟨w', hx⟩ := h₁ w
    have hrest := h₂ w'
    rw [Expr.run] at hrest ⊢
    simp only [Expr.runSeq, hx]
    rw [Expr.runSeq_eq, hrest]
    rfl
  | @seq_stop _ _ _ o _ hu ih =>
    refine ih.of_part fun depth w h => ?_
    obtain ⟨w', hx⟩ := h w
    rw [Expr.run]
    cases o with
    | matched stop v => exact absurd rfl (hu stop v)
    | _ => simp only [Expr.runSeq, hx]
  | @seq_later_stop _ _ _ _ _ o _ _ hu ih₁ ih₂ =>
    refine ih₁.of_parts ih₂ fun depth w h₁ h₂ => ?_
    obtain ⟨w', hx⟩ := h₁ w
    have hrest := h₂ w'
    rw [Expr.run] at hrest ⊢
    simp only [Expr.runSeq, hx]
    rw [Expr.runSeq_eq, hrest]
    cases o with
    | matched stop v => exact absurd rfl (hu stop v)
    | _ => rfl
  | choice_nil => exact ⟨0, fun depth _ w => by simp only [Expr.run, Expr.runChoice]⟩
  | @choice_commit _ _ _ o _ hne ih =>
    refine ih.of_part fun depth w h => ?_
    obtain ⟨w', hx⟩ := h w
    rw [Expr.run]
    cases o with
    | failed => exact absurd rfl hne
    | _ => simp only [Expr.runChoice, hx]
  | choice_next _ _ ih₁ ih₂ =>
    refine ih₁.of_parts ih₂ fun depth w h₁ h₂ => ?_
    obtain ⟨w', hx⟩ := h₁ w
    have hrest := h₂ w'
    rw [Expr.run] at hrest ⊢
    simp only [Expr.runChoice, hx]
    exact hrest
  | round_last _ ih =>
    refine ih.of_part fun depth w h => ?_
    obtain ⟨w', hx⟩ := h w
    rw [Expr.run, matchRepeat, repeatFrom_failed hx]
    rfl
  | @round_empty _ c _ _ _ hmid ih =>
    refine ih.of_part fun depth w h => ?_
    obtain ⟨w', hx⟩ := h w
    rw [Expr.run, matchRepeat_zero_empty c hx hmid]
  | round_more _ hmid _ ih₁ ih₂ =>
    refine ih₁.of_parts ih₂ fun depth w h₁ h₂ => ?_
    obtain ⟨w', hx⟩ := h₁ w
    have hrest := h₂ w'
    rw [Expr.run] at hrest ⊢
    rw [matchRepeat_zero_matched (Expr.run_callRule_advances _) hx hmid, hrest]
    rfl
  | round_raised _ ih =>
    refine ih.of_part fun depth w h => ?_
    obtain ⟨w', hx⟩ := h w
    rw [Expr.run, matchRepeat, repeatFrom_raised hx]
  | round_later_raised _ hmid _ ih₁ ih₂ =>
    refine ih₁.of_parts ih₂ fun depth w h₁ h₂ => ?_
    obtain ⟨w', hx⟩ := h₁ w
    have hrest := h₂ w'
    rw [Expr.run] at hrest ⊢
    rw [matchRepeat_zero_matched (Expr.run_callRule_advances _) hx hmid, hrest]
    rfl
  | repeated_enough _ _ hle ih =>
    refine ih.of_part fun depth w h => ?_
    obtain ⟨w', hx⟩ := h w
    rw [Expr.run] at hx ⊢
    rw [matchRepeat_eq, hx]
    simp only [Outcome.counted, Value.spread_list, List.length_nil, Nat.zero_add,
      List.reverse_nil, List.nil_append]
    exact if_neg (by omega)
  | repeated_short _ _ hlt ih =>
    refine ih.of_part fun depth w h => ?_
    obtain ⟨w', hx⟩ := h w
    rw [Expr.run] at hx ⊢
    rw [matchRepeat_eq, hx]
    simp only [Outcome.counted, Value.spread_list, List.length_nil, Nat.zero_add]
    exact if_pos hlt
  | repeated_raised _ _ ih =>
    refine ih.of_part fun depth w h => ?_
    obtain ⟨w', hx⟩ := h w
    rw [Expr.run] at hx ⊢
    rw [matchRepeat_eq, hx]
    rfl
  | @optional_present _ _ o _ hne ih =>
    refine ih.of_part fun depth w h => ?_
    obtain ⟨w', hx⟩ := h w
    rw [Expr.run]
    cases o with
    | failed => exact absurd rfl hne
    | _ => simp only [matchOptional, hx]
  | optional_absent _ ih =>
    refine ih.of_part fun depth w h => ?_
    obtain ⟨w', hx⟩ := h w
    simp only [Expr.run, matchOptional, hx]
  | not_failed _ ih | not_matched _ ih | not_raised _ ih =>
    refine ih.of_part fun depth w h => ?_
    obtain ⟨w', hx⟩ := h w.mute
    simp only [Expr.run, matchNot, hx]
  | action _ hb ih | action_raised _ hb ih =>
    refine ih.of_part fun depth w h => ?_
    obtain ⟨w', hx⟩ := h w
    simp only [Expr.run, matchAction, hx, hb]
  | @action_stop _ _ _ o _ hu ih =>
    refine ih.of_part fun depth w h => ?_
    obtain ⟨w', hx⟩ := h w
    rw [Expr.run]
    cases o with
    | matched stop v => exact absurd rfl (hu stop v)
    | _ => simp only [matchAction, hx]
  | endOfInput he =>
    refine ⟨0, fun depth _ w => ?_⟩
    rw [Expr.run, matchEnd, if_pos (List.isEmpty_iff.mpr he)]
  | endOfInput_failed he =>
    refine ⟨0, fun depth _ w => ?_⟩
    rw [Expr.run, matchEnd, if_neg fun h => he (List.isEmpty_iff.mp h)]
  | hole => exact ⟨0, fun depth _ w => rfl⟩

/-- An expression yields one outcome at most: any two are found by one run. -/
theorem Yields.deterministic {e : Expr α} {c : Cursor} {o o' : Outcome α}
    (h : Yields find lines e c o) (h' : Yields find lines e c o') : o = o' := by
  obtain ⟨n, hn⟩ := h.reached
  obtain ⟨n', hn'⟩ := h'.reached
  rw [← hn (max n n') (by omega) {}, hn' (max n n') (by omega) {}]

/-- **The matcher refines the declarative meaning.**  Whatever the rules, the expression, the cursor
and the failures noted before: an outcome of the matcher is yielded, it does not depend on what was
noted before, every outcome that is yielded is found once enough nested calls are allowed, and there
is only one.  A match ends behind some of the characters that were left, and if all references are
defined a fault comes from an action. -/
theorem run_refines_yields (find : String → Option (Expr α)) (lines : LineIndex) (e : Expr α)
    (c : Cursor) :
    (∀ depth w, (e.run (callRule find lines depth) lines c w).1 ≠ .exhausted →
      Yields find lines e c (e.run (callRule find lines depth) lines c w).1) ∧
    (∀ depth w w', (e.run (callRule find lines depth) lines c w).1
      = (e.run (callRule find lines depth) lines c w').1) ∧
    (∀ o, Yields find lines e c o → ∃ enough, ∀ depth, enough ≤ depth → ∀ w,
      (e.run (callRule find lines depth) lines c w).1 = o) ∧
    (∀ o o', Yields find lines e c o → Yields find lines e c o' → o = o') ∧
    (∀ stop v, Yields find lines e c (.matched stop v) → c.Reaches stop) ∧
    (e.Closed find → (∀ name body, find name = some body → body.Closed find) →
      ∀ fault, Yields find lines e c (.raised fault) → RaisedByAction find lines e fault) := by
  refine ⟨fun depth w hne => ?_, fun depth w w' => ?_, fun o h => h.reached,
    fun o o' h h' => h.deterministic h', fun stop v h => h.reaches,
    fun he hrules fault h => h.raised_by_action hrules he⟩
  · have hadv := callRule_advances find lines depth
    have h := Expr.run_yields hadv (callRule_yields find lines depth) e c w
    exact h.resolve_left hne
  · exact Expr.run_blind (callRule_blind find lines depth) e c w w'

end MessageIdl.Peg
