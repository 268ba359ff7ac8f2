import Mathlib.Data.String.Basic
import MessageIdl.Proofs.Peg.Matching
import Mathlib.Data.List.Sort

/-!
# Watches

A watch keeps the furthest failures only, and inside a lookahead it keeps what it has.

* `Watch.noteAll`: many failures in a row.
* `Watch.Reports`, `Watch.Reports.note`, `Watch.Reports.noteAll`: what a watch knows about the failures
  that it was told.
* `repeatFrom_rounds`: induction on the rounds of a repetition, with the watch at hand.
* `Matcher.Quiet`, `Expr.run_quiet`, `callRule_quiet`: inside a lookahead nothing is noted.
-/

namespace MessageIdl.Peg

open MessageIdl.Source

/-! ### Sorted labels -/

theorem mem_insertSorted {s t : String} {xs : List String} :
    t ∈ insertSorted s xs ↔ t = s ∨ t ∈ xs := by
  induction xs with
  | nil => simp [insertSorted]
  | cons x xs ih =>
    rw [insertSorted]
    split
    · rw [List.mem_cons]
    · split
      · rename_i heq
        rw [heq, List.mem_cons]
        exact ⟨.inr, fun h => h.elim .inl id⟩
      · rw [List.mem_cons, List.mem_cons, ih]
        exact or_left_comm

/-- A strictly increasing list stays one. -/
theorem pairwise_insertSorted (s : String) {xs : List String} (h : xs.Pairwise (· < ·)) :
    (insertSorted s xs).Pairwise (· < ·) := by
  induction xs with
  | nil => exact List.pairwise_singleton _ _
  | cons x xs ih =>
    have hx := List.pairwise_cons.mp h
    rw [insertSorted]
    split
    · rename_i hlt
      refine List.pairwise_cons.mpr ⟨fun t ht => ?_, h⟩
      rcases List.mem_cons.mp ht with rfl | ht
      · exact hlt
      · exact lt_trans hlt (hx.1 t ht)
    · rename_i hnlt
      split
      · exact h
      · rename_i hne
        have hgt : x < s := (lt_trichotomy s x).resolve_left hnlt |>.resolve_left hne
        refine List.pairwise_cons.mpr ⟨fun t ht => ?_, ih hx.2⟩
        rcases mem_insertSorted.mp ht with rfl | ht
        · exact hgt
        · exact hx.1 t ht

/-! ### Many failures in a row -/

namespace Watch

/-- Notes failures one after the other. -/
def noteAll (w : Watch) (failures : List (Nat × String)) : Watch :=
  failures.foldl (fun w f => w.note f.1 f.2) w

@[simp] theorem noteAll_nil (w : Watch) : w.noteAll [] = w := rfl

@[simp] theorem noteAll_cons (w : Watch) (f : Nat × String) (fs : List (Nat × String)) :
    w.noteAll (f :: fs) = (w.note f.1 f.2).noteAll fs := rfl

theorem noteAll_append (w : Watch) (fs gs : List (Nat × String)) :
    w.noteAll (fs ++ gs) = (w.noteAll fs).noteAll gs := List.foldl_append

@[simp] theorem note_muted (w : Watch) (offset : Nat) (label : String) :
    (w.note offset label).muted = w.muted := by
  unfold note
  repeat' split
  all_goals rfl

/-- Inside a lookahead nothing is noted. -/
theorem note_of_muted {w : Watch} (h : w.muted ≠ 0) (offset : Nat) (label : String) :
    w.note offset label = w := if_pos h

@[simp] theorem noteAll_muted (w : Watch) (fs : List (Nat × String)) :
    (w.noteAll fs).muted = w.muted := by
  induction fs generalizing w with
  | nil => rfl
  | cons f fs ih => rw [noteAll_cons, ih, note_muted]

theorem mute_muted_ne_zero (w : Watch) : w.mute.muted ≠ 0 := Nat.succ_ne_zero _

@[simp] theorem unmute_mute (w : Watch) : w.mute.unmute = w := rfl

/-- What a watch outside of lookaheads knows about the failures that it was told: the greatest offset,
and as a strictly increasing list the labels there.  An offset that no failure has is 0. -/
structure Reports (w : Watch) (failures : List (Nat × String)) : Prop where
  audible : w.muted = 0
  furthest : ∀ f ∈ failures, f.1 ≤ w.furthest
  sorted : w.expected.Pairwise (· < ·)
  expected : ∀ label, label ∈ w.expected ↔ (w.furthest, label) ∈ failures
  attained : failures = [] ∧ w.furthest = 0 ∨ ∃ label, (w.furthest, label) ∈ failures

/-- At the start nothing has failed. -/
theorem Reports.start : Reports {} [] where
  audible := rfl
  furthest := by simp
  sorted := .nil
  expected := by simp
  attained := .inl ⟨rfl, rfl⟩

/-- **One more failure.**  It may be further on, at the greatest offset so far, or before it. -/
theorem Reports.note {w : Watch} {failures : List (Nat × String)} (h : w.Reports failures)
    (offset : Nat) (label : String) :
    (w.note offset label).Reports (failures ++ [(offset, label)]) := by
  have hmem (f : Nat × String) : f ∈ failures ++ [(offset, label)] ↔ f ∈ failures ∨ f = (offset, label) := by
    rw [List.mem_append, List.mem_singleton]
  rw [Watch.note, if_neg fun hne => hne h.audible]
  rcases Nat.lt_trichotomy w.furthest offset with hlt | heq | hgt
  · rw [if_pos hlt]
    refine ⟨h.audible, fun f hf => ?_, List.pairwise_singleton _ _, fun l => ?_,
      .inr ⟨label, (hmem _).mpr (.inr rfl)⟩⟩
    · rcases (hmem f).mp hf with hf | rfl
      · exact Nat.le_of_lt (Nat.lt_of_le_of_lt (h.furthest f hf) hlt)
      · exact Nat.le_refl _
    · rw [hmem, List.mem_singleton, Prod.mk.injEq]
      constructor
      · intro hl
        exact .inr ⟨rfl, hl⟩
      · rintro (hf | ⟨-, hl⟩)
        · exact absurd (h.furthest _ hf) (Nat.not_le.mpr hlt)
        · exact hl
  · rw [if_neg (Nat.not_lt.mpr (Nat.le_of_eq heq.symm)), if_pos heq]
    subst heq
    refine ⟨h.audible, fun f hf => ?_, pairwise_insertSorted label h.sorted, fun l => ?_,
      .inr ⟨label, (hmem _).mpr (.inr rfl)⟩⟩
    · rcases (hmem f).mp hf with hf | rfl
      · exact h.furthest f hf
      · exact Nat.le_refl _
    · rw [hmem, mem_insertSorted, h.expected, Prod.mk.injEq]
      constructor
      · rintro (hl | hf)
        · exact .inr ⟨rfl, hl⟩
        · exact .inl hf
      · rintro (hf | ⟨-, hl⟩)
        · exact .inr hf
        · exact .inl hl
  · rw [if_neg (Nat.not_lt.mpr (Nat.le_of_lt hgt)), if_neg (Nat.ne_of_gt hgt)]
    refine ⟨h.audible, fun f hf => ?_, h.sorted, fun l => ?_, .inr ?_⟩
    · rcases (hmem f).mp hf with hf | rfl
      · exact h.furthest f hf
      · exact Nat.le_of_lt hgt
    · rw [hmem, h.expected, Prod.mk.injEq]
      constructor
      · exact .inl
      · rintro (hf | ⟨heq, -⟩)
        · exact hf
        · exact absurd heq (Nat.ne_of_gt hgt)
    · rcases h.attained with ⟨-, h0⟩ | ⟨l, hl⟩
      · omega
      · exact ⟨l, (hmem _).mpr (.inl hl)⟩

/-- All failures that a watch is told are reported, by induction on them. -/
theorem Reports.noteAll {w : Watch} {before : List (Nat × String)} (h : w.Reports before)
    (failures : List (Nat × String)) : (w.noteAll failures).Reports (before ++ failures) := by
  induction failures generalizing w before with
  | nil =>
    rw [List.append_nil]
    exact h
  | cons f fs ih =>
    rw [noteAll_cons, List.append_cons]
    exact ih (h.note f.1 f.2)

/-- Where the failures from an offset on are those of another watch, moved by as much, the furthest ones
are so as well. -/
theorem Reports.moved {w w' : Watch} {failures failures' : List (Nat × String)} {k : Nat}
    (h : w.Reports failures) (h' : w'.Reports failures') (hne : failures' ≠ [])
    (hmoved : ∀ pos label, (k + pos, label) ∈ failures ↔ (pos, label) ∈ failures') :
    w.furthest = k + w'.furthest ∧ w.expected = w'.expected := by
  obtain ⟨label', hlabel'⟩ : ∃ label, (w'.furthest, label) ∈ failures' := by
    rcases h'.attained with ⟨hnil, -⟩ | hlabel
    · exact absurd hnil hne
    · exact hlabel
  have hle : k + w'.furthest ≤ w.furthest := h.furthest _ ((hmoved _ _).mpr hlabel')
  have hfurthest : w.furthest = k + w'.furthest := by
    rcases h.attained with ⟨-, hzero⟩ | ⟨label, hlabel⟩
    · omega
    · have hsplit : w.furthest = k + (w.furthest - k) := by omega
      rw [hsplit] at hlabel
      have hle' : w.furthest - k ≤ w'.furthest := h'.furthest _ ((hmoved _ _).mp hlabel)
      omega
  refine ⟨hfurthest, h.sorted.eq_of_mem_iff h'.sorted fun label => ?_⟩
  rw [h.expected, h'.expected, hfurthest, hmoved]

end Watch

variable {α : Type}

/-! ### Rounds -/

/-- **Induction on rounds, with the failures noted.**  The bound on the number of rounds does not show
as long as each further round takes something. -/
theorem repeatFrom_rounds {m : Matcher α} {least : Int}
    {P : Cursor → Watch → Outcome α × Watch → Prop} (hm : m.Advances)
    (failed : ∀ c w w', m c w = (.failed, w') → ∀ values, P c w (finishRepeat least values c w'))
    (empty : ∀ c w mid v w', m c w = (.matched mid v, w') → mid.offset = c.offset →
      ∀ values, P c w (finishRepeat least values mid w'))
    (more : ∀ c w mid v w' r, m c w = (.matched mid v, w') → mid.offset ≠ c.offset → P mid w' r →
      P c w r)
    (raised : ∀ c w fault w', m c w = (.raised fault, w') → P c w (.raised fault, w'))
    (exhausted : ∀ c w w', m c w = (.exhausted, w') → P c w (.exhausted, w')) (text : List Char) :
    ∀ (values : List (Value α)) (c : Cursor) (w : Watch), c.rest.length ≤ text.length →
      P c w (repeatFrom least m text values c w) := by
  induction text with
  | nil =>
    intro values c w hle
    rcases hx : m c w with ⟨o, w'⟩
    cases o with
    | failed => rw [repeatFrom_failed hx]; exact failed c w w' hx values
    | matched mid v =>
      have hr : c.Reaches mid := hm c w mid v (congrArg Prod.fst hx)
      have hsum := hr.offset_add_length
      have hlen := hr.length_le
      rw [List.length_nil] at hle
      rw [repeatFrom_nil hx]
      exact empty c w mid v w' hx (by omega) _
    | raised fault => rw [repeatFrom_raised hx]; exact raised c w fault w' hx
    | exhausted => rw [repeatFrom_exhausted hx]; exact exhausted c w w' hx
  | cons x text ih =>
    intro values c w hle
    rcases hx : m c w with ⟨o, w'⟩
    cases o with
    | failed => rw [repeatFrom_failed hx]; exact failed c w w' hx values
    | matched mid v =>
      rw [repeatFrom_cons hx]
      split
      · rename_i hmid
        exact empty c w mid v w' hx hmid _
      · rename_i hmid
        have hr : c.Reaches mid := hm c w mid v (congrArg Prod.fst hx)
        have hlt := hr.length_lt hmid
        rw [List.length_cons] at hle
        exact more c w mid v w' _ hx hmid (ih _ mid w' (by omega))
    | raised fault => rw [repeatFrom_raised hx]; exact raised c w fault w' hx
    | exhausted => rw [repeatFrom_exhausted hx]; exact exhausted c w w' hx

@[simp] theorem finishRepeat_watch (least : Int) (values : List (Value α)) (c : Cursor) (w : Watch) :
    (finishRepeat least values c w).2 = w := by
  unfold finishRepeat
  split <;> rfl

/-! ### Nothing is noted inside a lookahead -/

/-- A watch inside a lookahead is given back as it was. -/
def Matcher.Quiet (m : Matcher α) : Prop := ∀ c w, w.muted ≠ 0 → (m c w).2 = w

section Quiet

variable {m : Matcher α}

theorem matchLiteral_quiet (text : String) : (matchLiteral text : Matcher α).Quiet := by
  intro c w hw
  unfold matchLiteral
  split
  · rfl
  · exact Watch.note_of_muted hw _ _

theorem matchPattern_quiet (p : Pattern) : (matchPattern p : Matcher α).Quiet := by
  intro c w hw
  unfold matchPattern
  split
  · rfl
  · exact Watch.note_of_muted hw _ _

theorem matchEnd_quiet : (matchEnd : Matcher α).Quiet := by
  intro c w hw
  unfold matchEnd
  split
  · rfl
  · exact Watch.note_of_muted hw _ _

theorem matchOptional_quiet (hm : m.Quiet) : (matchOptional m).Quiet := by
  intro c w hw
  have h := hm c w hw
  unfold matchOptional
  split
  · rename_i w' hx
    rw [hx] at h
    exact h
  · exact h

/-- A lookahead gives any watch back, except for its own failure. -/
theorem matchNot_watch (label : String) (hm : m.Quiet) (c : Cursor) (w : Watch) :
    (matchNot label m c w).2 =
      match (m c w.mute).1 with
      | .matched _ _ => w.note c.offset label
      | _ => w := by
  have h := hm c w.mute w.mute_muted_ne_zero
  rcases hx : m c w.mute with ⟨o, w'⟩
  rw [hx] at h
  cases (show w' = w.mute from h)
  cases o <;> simp only [matchNot, hx, Watch.unmute_mute]

theorem matchNot_quiet (label : String) (hm : m.Quiet) : (matchNot label m).Quiet := by
  intro c w hw
  rw [matchNot_watch label hm]
  split
  · exact Watch.note_of_muted hw _ _
  · rfl

theorem matchAction_quiet (lines : LineIndex) (act : Action α) (hm : m.Quiet) :
    (matchAction lines act m).Quiet := by
  intro c w hw
  have h := hm c w hw
  unfold matchAction
  split
  · rename_i stop v w' hx
    rw [hx] at h
    split <;> exact h
  · exact h

theorem matchRepeat_quiet (least : Int) (hadv : m.Advances) (hm : m.Quiet) :
    (matchRepeat least m).Quiet := by
  intro c w hw
  have watch {c : Cursor} {w w' : Watch} {o : Outcome α} (hw : w.muted ≠ 0) (hx : m c w = (o, w')) :
      w' = w := by
    have h := hm c w hw
    rw [hx] at h
    exact h
  refine repeatFrom_rounds (P := fun _ w r => w.muted ≠ 0 → r.2 = w) hadv
    (fun c w w' hx values hw => ?_) (fun c w mid v w' hx _ values hw => ?_)
    (fun c w mid v w' r hx _ ih hw => ?_) (fun c w fault w' hx hw => watch hw hx)
    (fun c w w' hx hw => watch hw hx) c.rest [] c w (Nat.le_refl _) hw
  · rw [finishRepeat_watch, watch hw hx]
  · rw [finishRepeat_watch, watch hw hx]
  · have heq := watch hw hx
    subst heq
    exact ih hw

end Quiet

namespace Expr

variable {call : String → Matcher α} {lines : LineIndex}

mutual

/-- Inside a lookahead an expression notes nothing if the rules do not. -/
theorem run_quiet (hadv : ∀ name, (call name).Advances) (hcall : ∀ name, (call name).Quiet) :
    ∀ e : Expr α, (e.run call lines).Quiet
  | .literal text => by rw [run]; exact matchLiteral_quiet text
  | .pattern p => by rw [run]; exact matchPattern_quiet p
  | .seq items => by rw [run]; exact runSeq_quiet hadv hcall items []
  | .choice alternatives => by rw [run]; exact runChoice_quiet hadv hcall alternatives
  | .repeated least body => by
      rw [run]
      exact matchRepeat_quiet least (run_advances hadv body) (run_quiet hadv hcall body)
  | .optional body => by rw [run]; exact matchOptional_quiet (run_quiet hadv hcall body)
  | .not body => by rw [run]; exact matchNot_quiet _ (run_quiet hadv hcall body)
  | .ref name => by rw [run]; exact hcall name
  | .action act body => by rw [run]; exact matchAction_quiet lines act (run_quiet hadv hcall body)
  | .endOfInput => by rw [run]; exact matchEnd_quiet
  | .hole => by intro c w _; rfl

theorem runSeq_quiet (hadv : ∀ name, (call name).Advances) (hcall : ∀ name, (call name).Quiet) :
    ∀ (items : List (Expr α)) (values : List (Value α)), (runSeq call lines items values).Quiet
  | [], values => by intro c w _; rfl
  | item :: items, values => by
      intro c w hw
      have h := run_quiet hadv hcall item c w hw
      simp only [runSeq]
      split
      · rename_i mid v w' hx
        rw [hx] at h
        cases (show w' = w from h)
        exact runSeq_quiet hadv hcall items (v :: values) mid w hw
      · exact h

theorem runChoice_quiet (hadv : ∀ name, (call name).Advances) (hcall : ∀ name, (call name).Quiet) :
    ∀ alternatives : List (Expr α), (runChoice call lines alternatives).Quiet
  | [] => by intro c w _; rfl
  | alternative :: alternatives => by
      intro c w hw
      have h := run_quiet hadv hcall alternative c w hw
      simp only [runChoice]
      split
      · rename_i w' hx
        rw [hx] at h
        cases (show w' = w from h)
        exact runChoice_quiet hadv hcall alternatives c w hw
      · exact h

end

end Expr

theorem callRule_quiet (find : String → Option (Expr α)) (lines : LineIndex) (depth : Nat) :
    ∀ name, (callRule find lines depth name).Quiet := by
  induction depth with
  | zero => intro name c w _; rfl
  | succ depth ih =>
    intro name c w hw
    cases hf : find name with
    | none => simp only [callRule, hf]
    | some body =>
      simp only [callRule, hf]
      exact Expr.run_quiet (callRule_advances find lines depth) ih body c w hw

/-- Inside a lookahead an expression notes nothing, with the rules of any table. -/
theorem Expr.run_callRule_quiet {find : String → Option (Expr α)} {lines : LineIndex} {depth : Nat}
    (e : Expr α) : (e.run (callRule find lines depth) lines).Quiet :=
  e.run_quiet (callRule_advances find lines depth) (callRule_quiet find lines depth)

end MessageIdl.Peg
