import MessageIdl.Proofs.Peg.Failures
import MessageIdl.Proofs.Peg.LeftRecursion
import MessageIdl.Proofs.Peg.Trying

/-!
# A run stays in its text

A run that begins in a text, with a watch that knows of failures in that text only, leaves neither: it
ends in the text, its watch stays there, and no span that it asks for has to be moved.

* `LineIndex.Covers`: spans whose ends are not moved.
* `Watch.Continues`: what a run may do to the watch.
* `Hands`: the spans that actions are given.
* `Matcher.AgreeTo`, `callRule_agreeTo`: only spans of the text are looked at.
* `run_within_text`: the bounds of a run and of all its spans.
-/

namespace MessageIdl.Source

/-- The span from `i` to `j` does not end before it begins, and neither end is moved into the text. -/
structure LineIndex.Covers (t : LineIndex) (i j : Nat) : Prop where
  ordered : i ≤ j
  start : (t.span i j).start.offset = i
  stop : (t.span i j).stop.offset = j

theorem LineIndex.covers_ofText (file : String) {text : List Char} {i j : Nat} (hij : i ≤ j)
    (hj : j ≤ text.length) : (ofText file text).Covers i j := by
  have hspan := Peg.span_ofText file text (Nat.le_trans hij hj) hj
  exact ⟨hij, hspan.1, hspan.2⟩

end MessageIdl.Source

namespace MessageIdl.Peg

open MessageIdl.Source

variable {α : Type}

/-! ### The watch -/

namespace Watch

variable {w w' : Watch} {n : Nat}

theorem furthest_le_note (w : Watch) (offset : Nat) (label : String) :
    w.furthest ≤ (w.note offset label).furthest := by
  unfold note
  split_ifs
  · exact Nat.le_refl _
  · show w.furthest ≤ offset
    omega
  · exact Nat.le_refl _
  · exact Nat.le_refl _

theorem note_furthest_le {offset : Nat} (label : String) (hw : w.furthest ≤ n) (ho : offset ≤ n) :
    (w.note offset label).furthest ≤ n := by
  unfold note
  split_ifs
  · exact hw
  · exact ho
  · exact hw
  · exact hw

theorem furthest_le_noteAll (w : Watch) (failures : List (Nat × String)) :
    w.furthest ≤ (w.noteAll failures).furthest := by
  induction failures generalizing w with
  | nil => exact Nat.le_refl _
  | cons f fs ih =>
    rw [noteAll_cons]
    exact Nat.le_trans (furthest_le_note w f.1 f.2) (ih _)

theorem noteAll_furthest_le {failures : List (Nat × String)} (hw : w.furthest ≤ n)
    (hfailures : ∀ f ∈ failures, f.1 ≤ n) : (w.noteAll failures).furthest ≤ n := by
  induction failures generalizing w with
  | nil => exact hw
  | cons f fs ih =>
    rw [noteAll_cons]
    apply ih
    · exact note_furthest_le f.2 hw (hfailures f List.mem_cons_self)
    · exact fun g hg => hfailures g (List.mem_cons_of_mem _ hg)

/-- What a run in a text of `n` characters may do to the watch: the greatest offset does not go back and
stays in the text, the count of lookaheads is given back, and inside a lookahead nothing changes. -/
structure Continues (n : Nat) (w w' : Watch) : Prop where
  onward : w.furthest ≤ w'.furthest
  within : w'.furthest ≤ n
  muted : w'.muted = w.muted
  silent : w.muted ≠ 0 → w'.furthest = w.furthest ∧ w'.expected = w.expected

theorem Continues.refl (h : w.furthest ≤ n) : w.Continues n w where
  onward := Nat.le_refl _
  within := h
  muted := rfl
  silent _ := ⟨rfl, rfl⟩

/-- Noting failures of the text goes on, outside of lookaheads. -/
theorem Gains.continues {F : Nat → String → Prop} (h : w.Gains w' F) (hw : w.furthest ≤ n)
    (hmuted : w.muted = 0) (hF : ∀ pos label, F pos label → pos ≤ n) : w.Continues n w' := by
  obtain ⟨failures, rfl, hfailures⟩ := h
  refine ⟨furthest_le_noteAll w failures, noteAll_furthest_le hw fun f hf => ?_,
    noteAll_muted w failures, fun hne => absurd hmuted hne⟩
  exact hF _ _ ((hfailures f.1 f.2).mp hf)

end Watch

section Run

variable {find : String → Option (Expr α)} {lines lines' : LineIndex} {e : Expr α} {c stop : Cursor}
  {v : Value α} {w : Watch} {i j n depth pos : Nat} {label : String}

theorem Cursor.Reaches.offset_le_end (h : c.Reaches stop) : stop.offset ≤ c.offset + c.rest.length := by
  have hsum := h.offset_add_length
  omega

/-- **The watch of a run.**  Outside of lookaheads it is told the failures on the way, inside of them it
is told nothing. -/
theorem run_continues (hw : w.furthest ≤ c.offset + c.rest.length)
    (hends : (e.run (callRule find lines depth) lines c w).1 ≠ .exhausted) :
    w.Continues (c.offset + c.rest.length) (e.run (callRule find lines depth) lines c w).2 := by
  by_cases hmuted : w.muted = 0
  · have hlog := e.run_callRule_logs c w hmuted hends
    apply hlog.continues hw hmuted
    intro pos label hm
    obtain ⟨spot, hr, rfl⟩ := hm.reaches
    exact hr.offset_le_end
  · rw [e.run_callRule_quiet c w hmuted]
    exact .refl hw

/-! ### Spans that are handed to actions -/

/-- While `e` is tried at `c`, the body of an action matches from `i` to `j`, so that the action is
given the span between them. -/
def Hands (find : String → Option (Expr α)) (lines : LineIndex) (e : Expr α) (c : Cursor)
    (i j : Nat) : Prop :=
  ∃ act body spot stop v, Tries find lines e c (.action act body) spot ∧
    Yields find lines body spot (.matched stop v) ∧ spot.offset = i ∧ stop.offset = j

/-- A span that an action is given lies between the place of the run and the end of the text. -/
theorem Hands.bounds (h : Hands find lines e c i j) :
    c.offset ≤ i ∧ i ≤ j ∧ j ≤ c.offset + c.rest.length := by
  obtain ⟨act, body, spot, stop, v, ht, hy, rfl, rfl⟩ := h
  have hspot := ht.reaches
  have hstop := hy.reaches
  exact ⟨hspot.offset_le, hstop.offset_le, (hspot.trans hstop).offset_le_end⟩

end Run

/-! ### Only spans of the text are looked at -/

/-- Two matchers do the same at all places of a text of `n` characters. -/
def Matcher.AgreeTo (n : Nat) (m m' : Matcher α) : Prop :=
  ∀ c w, c.offset + c.rest.length = n → m c w = m' c w

section AgreeTo

variable {m m' : Matcher α} {n : Nat} {lines lines' : LineIndex}

theorem matchOptional_agreeTo (h : m.AgreeTo n m') : (matchOptional m).AgreeTo n (matchOptional m') := by
  intro c w hc
  rw [matchOptional, matchOptional, h c w hc]

theorem matchNot_agreeTo (label : String) (h : m.AgreeTo n m') :
    (matchNot label m).AgreeTo n (matchNot label m') := by
  intro c w hc
  rw [matchNot, matchNot, h c w.mute hc]

/-- An action is the one place where the table of lines is looked at. -/
theorem matchAction_agreeTo (act : Action α)
    (hspan : ∀ i j : Nat, i ≤ j → j ≤ n → lines.span i j = lines'.span i j) (hadv : m.Advances)
    (h : m.AgreeTo n m') : (matchAction lines act m).AgreeTo n (matchAction lines' act m') := by
  intro c w hc
  rw [matchAction, matchAction, ← h c w hc]
  rcases hx : m c w with ⟨o, w'⟩
  cases o with
  | matched stop v =>
    have hr : c.Reaches stop := hadv c w stop v (congrArg Prod.fst hx)
    have hle := hr.offset_le_end
    rw [hc] at hle
    simp only [hspan c.offset stop.offset hr.offset_le hle]
  | _ => rfl

theorem repeatFrom_agreeTo (least : Int) (hadv : m.Advances) (h : m.AgreeTo n m') (text : List Char)
    (values : List (Value α)) :
    (repeatFrom least m text values).AgreeTo n (repeatFrom least m' text values) := by
  induction text generalizing values with
  | nil =>
    intro c w hc
    rw [repeatFrom, repeatFrom, h c w hc]
  | cons x text ih =>
    intro c w hc
    rw [repeatFrom, repeatFrom, ← h c w hc]
    rcases hx : m c w with ⟨o, w'⟩
    cases o with
    | matched mid v =>
      have hr : c.Reaches mid := hadv c w mid v (congrArg Prod.fst hx)
      simp only [ih (v :: values) mid w' (hr.offset_add_length.trans hc)]
    | _ => rfl

theorem matchRepeat_agreeTo (least : Int) (hadv : m.Advances) (h : m.AgreeTo n m') :
    (matchRepeat least m).AgreeTo n (matchRepeat least m') :=
  fun c w hc => repeatFrom_agreeTo least hadv h c.rest [] c w hc

end AgreeTo

namespace Expr

variable {call call' : String → Matcher α} {lines lines' : LineIndex} {n : Nat}

mutual

/-- Tables with the same spans of the text give the same runs if the rules do the same. -/
theorem run_agreeTo (hspan : ∀ i j : Nat, i ≤ j → j ≤ n → lines.span i j = lines'.span i j)
    (hadv : ∀ name, (call name).Advances) (h : ∀ name, (call name).AgreeTo n (call' name)) :
    ∀ e : Expr α, (e.run call lines).AgreeTo n (e.run call' lines')
  | .literal _ => by rw [run, run]; exact fun _ _ _ => rfl
  | .pattern _ => by rw [run, run]; exact fun _ _ _ => rfl
  | .seq items => by rw [run, run]; exact runSeq_agreeTo hspan hadv h items []
  | .choice alternatives => by rw [run, run]; exact runChoice_agreeTo hspan hadv h alternatives
  | .repeated least body => by
      rw [run, run]
      exact matchRepeat_agreeTo least (run_advances hadv body) (run_agreeTo hspan hadv h body)
  | .optional body => by rw [run, run]; exact matchOptional_agreeTo (run_agreeTo hspan hadv h body)
  | .not body => by rw [run, run]; exact matchNot_agreeTo _ (run_agreeTo hspan hadv h body)
  | .ref name => by rw [run, run]; exact h name
  | .action act body => by
      rw [run, run]
      exact matchAction_agreeTo act hspan (run_advances hadv body) (run_agreeTo hspan hadv h body)
  | .endOfInput => by rw [run, run]; exact fun _ _ _ => rfl
  | .hole => by rw [run, run]; exact fun _ _ _ => rfl

theorem runSeq_agreeTo (hspan : ∀ i j : Nat, i ≤ j → j ≤ n → lines.span i j = lines'.span i j)
    (hadv : ∀ name, (call name).Advances) (h : ∀ name, (call name).AgreeTo n (call' name)) :
    ∀ (items : List (Expr α)) (values : List (Value α)),
      (runSeq call lines items values).AgreeTo n (runSeq call' lines' items values)
  | [], values => fun _ _ _ => rfl
  | item :: items, values => by
      intro c w hc
      simp only [runSeq, ← run_agreeTo hspan hadv h item c w hc]
      rcases hx : run call lines item c w with ⟨o, w'⟩
      cases o with
      | matched mid v =>
        have hr : c.Reaches mid := run_advances hadv item c w mid v (congrArg Prod.fst hx)
        exact runSeq_agreeTo hspan hadv h items (v :: values) mid w' (hr.offset_add_length.trans hc)
      | _ => rfl

theorem runChoice_agreeTo (hspan : ∀ i j : Nat, i ≤ j → j ≤ n → lines.span i j = lines'.span i j)
    (hadv : ∀ name, (call name).Advances) (h : ∀ name, (call name).AgreeTo n (call' name)) :
    ∀ alternatives : List (Expr α),
      (runChoice call lines alternatives).AgreeTo n (runChoice call' lines' alternatives)
  | [] => fun _ _ _ => rfl
  | alternative :: alternatives => by
      intro c w hc
      simp only [runChoice, ← run_agreeTo hspan hadv h alternative c w hc]
      rcases run call lines alternative c w with ⟨o, w'⟩
      cases o with
      | failed => exact runChoice_agreeTo hspan hadv h alternatives c w' hc
      | _ => rfl

end

end Expr

/-- **Only spans of the text are looked at**, whatever bound on nested calls there is. -/
theorem callRule_agreeTo (find : String → Option (Expr α)) {lines lines' : LineIndex} {n : Nat}
    (hspan : ∀ i j : Nat, i ≤ j → j ≤ n → lines.span i j = lines'.span i j) (depth : Nat) :
    ∀ name, (callRule find lines depth name).AgreeTo n (callRule find lines' depth name) := by
  induction depth with
  | zero => exact fun _ _ _ _ => rfl
  | succ depth ih =>
    intro name c w hc
    cases hf : find name with
    | none => simp only [callRule, hf]
    | some body =>
      simp only [callRule, hf]
      exact Expr.run_agreeTo hspan (callRule_advances find lines depth) ih body c w hc

/-! ### The bounds of a run -/

/-- The span of the error for a watch that stays in the text is not moved. -/
theorem Watch.exists_explain_covers (file : String) {text : List Char} {w : Watch}
    (h : w.furthest ≤ text.length) :
    ∃ j : Nat, (w.explain (.ofText file text) text).span = (LineIndex.ofText file text).span w.furthest j ∧
      (LineIndex.ofText file text).Covers w.furthest j := by
  refine ⟨min (w.furthest + 1) text.length, w.explain_span _ text, ?_⟩
  apply LineIndex.covers_ofText
  · omega
  · exact Nat.min_le_right _ _

/-- **The bounds of a run.**  From a place of a text, and with a watch that knows of failures in the text
only, a run that ends

* matches up to a place of the text that is not in front of the first one,
* does not let the greatest offset of a failure go back, nor leave the text,
* gives the count of lookaheads back, whether it matches, fails or raises a fault,
* and, inside a lookahead, changes nothing that was noted.

No span handed to an action is moved, so that any other table with the same spans of the text does as
well, and neither is the span of an error. -/
theorem run_within_text (find : String → Option (Expr α)) (e : Expr α) (file : String)
    (text : List Char) {pos depth : Nat} {w : Watch} (hpos : pos ≤ text.length)
    (hfurthest : w.furthest ≤ text.length)
    (hends : (e.run (callRule find (.ofText file text) depth) (.ofText file text)
      ⟨pos, text.drop pos⟩ w).1 ≠ .exhausted) :
    let lines := LineIndex.ofText file text
    let r := e.run (callRule find lines depth) lines ⟨pos, text.drop pos⟩ w
    (∀ stop v, r.1 = .matched stop v →
      pos ≤ stop.offset ∧ stop.offset ≤ text.length ∧ stop.rest = text.drop stop.offset) ∧
    w.Continues text.length r.2 ∧
    (∀ i j, Hands find lines e ⟨pos, text.drop pos⟩ i j → lines.Covers i j) ∧
    (∀ lines' : LineIndex,
      (∀ i j : Nat, i ≤ j → j ≤ text.length → lines.span i j = lines'.span i j) →
        e.run (callRule find lines' depth) lines' ⟨pos, text.drop pos⟩ w = r) ∧
    (∃ j : Nat, (r.2.explain lines text).span = lines.span r.2.furthest j ∧
      lines.Covers r.2.furthest j) ∧
    ∀ (p : Parser α) (src : String) (err : ParseError),
      p.parse file src = .error (.rejected err) →
        ∃ i j : Nat, err.span = (LineIndex.ofText file src.toList).span i j ∧
          (LineIndex.ofText file src.toList).Covers i j := by
  intro lines r
  have hlength : pos + (text.drop pos).length = text.length := by
    rw [List.length_drop]
    omega
  have hcontinues : w.Continues text.length r.2 := by
    have h := run_continues (c := ⟨pos, text.drop pos⟩) (hlength.symm ▸ hfurthest) hends
    rwa [show (⟨pos, text.drop pos⟩ : Cursor).offset + _ = _ from hlength] at h
  refine ⟨fun stop v hr => ?_, hcontinues, fun i j h => ?_, fun lines' hspan => ?_,
    Watch.exists_explain_covers file hcontinues.within, fun p src err h => ?_⟩
  · have hreach : Cursor.Reaches ⟨pos, text.drop pos⟩ stop :=
      e.run_callRule_advances _ w stop v hr
    have hle := hreach.offset_le_end
    obtain ⟨n, -, rfl⟩ := hreach
    exact ⟨Nat.le_add_right _ _, hlength ▸ hle, List.drop_drop⟩
  · obtain ⟨-, hij, hj⟩ := h.bounds
    exact LineIndex.covers_ofText file hij (hlength ▸ hj)
  · exact (Expr.run_agreeTo hspan (callRule_advances find lines depth)
      (callRule_agreeTo find hspan depth) e ⟨pos, text.drop pos⟩ w hlength).symm
  · obtain ⟨w', failures, hw', hfailures, rfl⟩ := Parser.exists_reports h
    obtain ⟨j, hj⟩ := Watch.exists_explain_covers file (Parser.furthest_le_length hw' hfailures)
    exact ⟨w'.furthest, j, hj⟩

/-- A pair of brackets is read behind a failure that is known already, and its span is handed on. -/
theorem run_within_text_pair :
    let lines := LineIndex.ofText "" "[];".toList
    let e : Expr Unit := .action (.keep "Pair") (.ref "Pair")
    let w := (e.run (callRule bracketParser.find lines 5) lines ⟨0, "[];".toList⟩ ⟨1, ["x"], 0⟩).2
    Hands bracketParser.find lines e ⟨0, "[];".toList⟩ 0 2 ∧ lines.Covers 0 2 ∧
      w = ⟨1, ["\" \"", "\"[\"", "x"], 0⟩ ∧ Watch.Continues 3 ⟨1, ["x"], 0⟩ w := by
  intro lines e w
  have hpair : Yields bracketParser.find lines (.ref "Pair") ⟨0, "[];".toList⟩
      (.matched ⟨2, [';']⟩ _) :=
    (callRule_yields bracketParser.find lines 5 "Pair" ⟨0, "[];".toList⟩ {}).resolve_left nofun
  have hhands : Hands bracketParser.find lines e ⟨0, "[];".toList⟩ 0 2 :=
    ⟨_, _, _, _, _, .self, hpair, rfl, rfl⟩
  have hrun := @run_within_text Unit bracketParser.find e "" "[];".toList 0 5 ⟨1, ["x"], 0⟩ (by decide)
    (by decide) nofun
  exact ⟨hhands, hrun.2.2.1 0 2 hhands, rfl, hrun.2.1⟩

end MessageIdl.Peg
