import MessageIdl.Peg.Parser
import MessageIdl.Proofs.Peg.Misses
import MessageIdl.Proofs.Peg.Watching
import Mathlib.Order.Bounds.Defs

/-!
# The furthest failure

Outside of lookaheads a run notes exactly the failures that the declarative meaning speaks of.  A parse
error therefore tells the furthest of them.

* `Watch.Gains`: which failures were noted between two watches.
* `Logs`, `Expr.run_logs`, `callRule_logs`: a run notes the failures on its way.
* `Parser.Failure`: the failures of a parse.
* `Parser.rejected_furthest`: a parse error stands at the furthest failure and lists the labels there.
-/

namespace MessageIdl.Peg

open MessageIdl.Source

variable {α : Type}

/-! ### A run notes the failures on its way -/

/-- From `w` to `w'` the failures in `F` were noted and no others. -/
def Watch.Gains (w w' : Watch) (F : Nat → String → Prop) : Prop :=
  ∃ failures : List (Nat × String), w' = w.noteAll failures ∧
    ∀ pos label, (pos, label) ∈ failures ↔ F pos label

namespace Watch.Gains

variable {w w' w'' : Watch} {F G H : Nat → String → Prop}

theorem none (h : ∀ pos label, ¬ F pos label) : w.Gains w F :=
  ⟨[], rfl, fun pos label => by simp [h pos label]⟩

theorem one {offset : Nat} {text : String}
    (h : ∀ pos label, F pos label ↔ pos = offset ∧ label = text) :
    w.Gains (w.note offset text) F :=
  ⟨[(offset, text)], rfl, fun pos label => by rw [h, List.mem_singleton, Prod.mk.injEq]⟩

theorem trans (h : w.Gains w' F) (h' : w'.Gains w'' G)
    (hH : ∀ pos label, H pos label ↔ F pos label ∨ G pos label) : w.Gains w'' H := by
  obtain ⟨fs, rfl, hF⟩ := h
  obtain ⟨gs, rfl, hG⟩ := h'
  refine ⟨fs ++ gs, (noteAll_append w fs gs).symm, fun pos label => ?_⟩
  rw [List.mem_append, hF, hG, hH]

theorem congr (h : w.Gains w' F) (hG : ∀ pos label, G pos label ↔ F pos label) : w.Gains w' G := by
  obtain ⟨fs, rfl, hF⟩ := h
  exact ⟨fs, rfl, fun pos label => by rw [hF, hG]⟩

theorem muted (h : w.Gains w' F) (hw : w.muted = 0) : w'.muted = 0 := by
  obtain ⟨fs, rfl, -⟩ := h
  rw [noteAll_muted, hw]

end Watch.Gains

/-- Outside of lookaheads `m` notes the failures on the way of `e`, unless the bound on nested calls is
reached. -/
def Logs (find : String → Option (Expr α)) (lines : LineIndex) (e : Expr α) (m : Matcher α) : Prop :=
  ∀ c w, w.muted = 0 → (m c w).1 ≠ .exhausted → w.Gains (m c w).2 (Misses find lines e c)

section Logs

variable {find : String → Option (Expr α)} {lines : LineIndex} {m : Matcher α} {e : Expr α}

theorem matchLiteral_logs (text : String) : Logs find lines (.literal text) (matchLiteral text) := by
  intro c w _ _
  unfold matchLiteral
  split
  · rename_i hp
    exact .none fun pos label => not_misses_literal (List.isPrefixOf_iff_prefix.mp hp)
  · rename_i hp
    exact .one fun pos label => misses_literal fun h => hp (List.isPrefixOf_iff_prefix.mpr h)

theorem matchPattern_logs (p : Pattern) : Logs find lines (.pattern p) (matchPattern p) := by
  intro c w _ _
  unfold matchPattern
  split
  · rename_i n hs
    exact .none fun pos label => not_misses_pattern hs
  · rename_i hs
    exact .one fun pos label => misses_pattern hs

theorem matchEnd_logs : Logs find lines .endOfInput matchEnd := by
  intro c w _ _
  unfold matchEnd
  split
  · rename_i he
    exact .none fun pos label => not_misses_endOfInput (List.isEmpty_iff.mp he)
  · rename_i he
    exact .one fun pos label => misses_endOfInput fun h => he (List.isEmpty_iff.mpr h)

theorem matchOptional_logs (hm : Logs find lines e m) :
    Logs find lines (.optional e) (matchOptional m) := by
  intro c w hw hne
  have h := hm c w hw
  rcases hx : m c w with ⟨o, w'⟩
  rw [hx] at h
  cases o with
  | exhausted => simp [matchOptional, hx] at hne
  | _ =>
    simp only [matchOptional, hx]
    exact (h (by simp)).congr fun pos label => misses_optional

theorem matchNot_logs (label : String) (hquiet : m.Quiet)
    (hy : ∀ c w, Settled find lines e c (m c w).1) (hlabel : label = "not " ++ e.display) :
    Logs find lines (.not e) (matchNot label m) := by
  intro c w _ hne
  have h := hy c w.mute
  rw [matchNot_watch label hquiet]
  rcases hx : m c w.mute with ⟨o, w'⟩
  rw [hx] at h
  cases o with
  | exhausted => simp [matchNot, hx] at hne
  | matched stop v =>
    subst hlabel
    exact .one fun pos label => misses_not (h.resolve_left (by simp))
  | _ => exact .none fun pos label => not_misses_not (h.resolve_left (by simp)) (by simp)

theorem matchAction_logs (act : Action α) (hm : Logs find lines e m) :
    Logs find lines (.action act e) (matchAction lines act m) := by
  intro c w hw hne
  have h := hm c w hw
  rcases hx : m c w with ⟨o, w'⟩
  rw [hx] at h
  have hlog (hne : o ≠ .exhausted) : w.Gains w' (Misses find lines (.action act e) c) :=
    (h hne).congr fun pos label => misses_action
  cases o with
  | exhausted => simp [matchAction, hx] at hne
  | matched stop v =>
    simp only [matchAction, hx]
    split <;> exact hlog (by simp)
  | _ =>
    simp only [matchAction, hx]
    exact hlog (by simp)

/-- The failures of a repetition are those of its rounds. -/
theorem matchRepeat_logs (least : Int) (hadv : m.Advances)
    (hy : ∀ c w, Settled find lines e c (m c w).1) (hm : Logs find lines e m) :
    Logs find lines (.repeated least e) (matchRepeat least m) := by
  intro c w hw hne
  have round {c : Cursor} {w w' : Watch} {o : Outcome α} (hw : w.muted = 0)
      (hne : o ≠ .exhausted) (hx : m c w = (o, w')) :
      Yields find lines e c o ∧ w.Gains w' (Misses find lines e c) := by
    have hy := hy c w
    have hlog := hm c w hw
    rw [hx] at hy hlog
    exact ⟨hy.resolve_left hne, hlog hne⟩
  refine repeatFrom_rounds
    (P := fun c w r => w.muted = 0 → r.1 ≠ .exhausted →
      w.Gains r.2 (Misses find lines (.repeated least e) c)) hadv
    (fun c w w' hx values hw _ => ?_) (fun c w mid v w' hx hmid values hw _ => ?_)
    (fun c w mid v w' r hx hmid ih hw hne => ?_) (fun c w fault w' hx hw _ => ?_)
    (fun c w w' _ _ hne => absurd rfl hne) c.rest [] c w (Nat.le_refl _) hw hne
  · obtain ⟨hy, hlog⟩ := round hw (by simp) hx
    rw [finishRepeat_watch]
    exact hlog.congr fun pos label => misses_round_last hy nofun
  · obtain ⟨hy, hlog⟩ := round hw (by simp) hx
    rw [finishRepeat_watch]
    refine hlog.congr fun pos label => misses_round_last hy fun mid' v' heq => ?_
    cases heq
    exact hmid
  · obtain ⟨hy, hlog⟩ := round hw (by simp) hx
    exact hlog.trans (ih (hlog.muted hw) hne) fun pos label => misses_round_more hy hmid
  · obtain ⟨hy, hlog⟩ := round hw (by simp) hx
    exact hlog.congr fun pos label => misses_round_last hy nofun

end Logs

namespace Expr

variable {find : String → Option (Expr α)} {lines : LineIndex} {call : String → Matcher α}

mutual

/-- An expression notes the failures on its way if the rules do. -/
theorem run_logs (hadv : ∀ name, (call name).Advances) (hquiet : ∀ name, (call name).Quiet)
    (hy : ∀ name c w, Settled find lines (.ref name) c (call name c w).1)
    (hcall : ∀ name, Logs find lines (.ref name) (call name)) :
    ∀ e : Expr α, Logs find lines e (e.run call lines)
  | .literal text => by rw [run]; exact matchLiteral_logs text
  | .pattern p => by rw [run]; exact matchPattern_logs p
  | .seq items => by rw [run]; exact runSeq_logs hadv hquiet hy hcall items []
  | .choice alternatives => by rw [run]; exact runChoice_logs hadv hquiet hy hcall alternatives
  | .repeated least body => by
      rw [run]
      exact matchRepeat_logs least (run_advances hadv body) (run_yields hadv hy body)
        (run_logs hadv hquiet hy hcall body)
  | .optional body => by rw [run]; exact matchOptional_logs (run_logs hadv hquiet hy hcall body)
  | .not body => by
      rw [run]
      exact matchNot_logs _ (run_quiet hadv hquiet body) (run_yields hadv hy body) rfl
  | .ref name => by rw [run]; exact hcall name
  | .action act body => by rw [run]; exact matchAction_logs act (run_logs hadv hquiet hy hcall body)
  | .endOfInput => by rw [run]; exact matchEnd_logs
  | .hole => by intro c w _ _; exact .none nofun

theorem runSeq_logs (hadv : ∀ name, (call name).Advances) (hquiet : ∀ name, (call name).Quiet)
    (hy : ∀ name c w, Settled find lines (.ref name) c (call name c w).1)
    (hcall : ∀ name, Logs find lines (.ref name) (call name)) :
    ∀ (items : List (Expr α)) (values : List (Value α)),
      Logs find lines (.seq items) (runSeq call lines items values)
  | [], values => by intro c w _ _; exact .none fun pos label => not_misses_seq_nil
  | item :: items, values => by
      intro c w hw hne
      have hyields := run_yields hadv hy item c w
      have hlog := run_logs hadv hquiet hy hcall item c w hw
      rcases hx : run call lines item c w with ⟨o, w'⟩
      rw [hx] at hyields hlog
      cases o with
      | exhausted => simp [runSeq, hx] at hne
      | matched mid v =>
        have hy' := hyields.resolve_left (by simp)
        have hlog := hlog (by simp)
        simp only [runSeq, hx] at hne ⊢
        have hrest := runSeq_logs hadv hquiet hy hcall items (v :: values) mid w' (hlog.muted hw) hne
        exact hlog.trans hrest fun pos label => misses_seq_matched hy'
      | _ =>
        simp only [runSeq, hx]
        exact (hlog (by simp)).congr fun pos label =>
          misses_seq_stop (hyields.resolve_left (by simp)) (by simp)

theorem runChoice_logs (hadv : ∀ name, (call name).Advances) (hquiet : ∀ name, (call name).Quiet)
    (hy : ∀ name c w, Settled find lines (.ref name) c (call name c w).1)
    (hcall : ∀ name, Logs find lines (.ref name) (call name)) :
    ∀ alternatives : List (Expr α),
      Logs find lines (.choice alternatives) (runChoice call lines alternatives)
  | [] => by intro c w _ _; exact .none fun pos label => not_misses_choice_nil
  | alternative :: alternatives => by
      intro c w hw hne
      have hyields := run_yields hadv hy alternative c w
      have hlog := run_logs hadv hquiet hy hcall alternative c w hw
      rcases hx : run call lines alternative c w with ⟨o, w'⟩
      rw [hx] at hyields hlog
      cases o with
      | exhausted => simp [runChoice, hx] at hne
      | failed =>
        have hy' := hyields.resolve_left (by simp)
        have hlog := hlog (by simp)
        simp only [runChoice, hx] at hne ⊢
        have hrest := runChoice_logs hadv hquiet hy hcall alternatives c w' (hlog.muted hw) hne
        exact hlog.trans hrest fun pos label => misses_choice_failed hy'
      | _ =>
        simp only [runChoice, hx]
        exact (hlog (by simp)).congr fun pos label =>
          misses_choice_commit (hyields.resolve_left (by simp)) (by simp)

end

end Expr

/-- A rule notes the failures on its way, whatever bound on nested calls there is. -/
theorem callRule_logs (find : String → Option (Expr α)) (lines : LineIndex) (depth : Nat) :
    ∀ name, Logs find lines (.ref name) (callRule find lines depth name) := by
  induction depth with
  | zero => intro name c w _ hne; exact absurd rfl hne
  | succ depth ih =>
    intro name c w hw hne
    cases hf : find name with
    | none =>
      simp only [callRule, hf]
      exact .none fun pos label => not_misses_ref hf
    | some body =>
      simp only [callRule, hf] at hne ⊢
      have hlog := Expr.run_logs (callRule_advances find lines depth)
        (callRule_quiet find lines depth) (callRule_yields find lines depth) ih body c w hw hne
      exact hlog.congr fun pos label => misses_ref hf

/-- An expression notes the failures on its way, with the rules of any table. -/
theorem Expr.run_callRule_logs {find : String → Option (Expr α)} {lines : LineIndex} {depth : Nat}
    (e : Expr α) : Logs find lines e (e.run (callRule find lines depth) lines) :=
  e.run_logs (callRule_advances find lines depth) (callRule_quiet find lines depth)
    (callRule_yields find lines depth) (callRule_logs find lines depth)

/-! ### Parse errors -/

@[simp] theorem Watch.explain_expected (w : Watch) (lines : LineIndex) (text : List Char) :
    (w.explain lines text).expected = w.expected := by
  simp only [explain, apply_ite ParseError.expected, ite_self]

theorem Watch.explain_span (w : Watch) (lines : LineIndex) (text : List Char) :
    (w.explain lines text).span
      = lines.span w.furthest (min (w.furthest + 1) lines.size : Nat) := by
  simp only [explain, apply_ite ParseError.span, ite_self]

/-- An offset of the text is not moved. -/
theorem span_ofText (file : String) (text : List Char) {i j : Nat} (hi : i ≤ text.length)
    (hj : j ≤ text.length) :
    ((LineIndex.ofText file text).span i j).start.offset = i ∧
      ((LineIndex.ofText file text).span i j).stop.offset = j :=
  ⟨Nat.min_eq_left hi, Nat.min_eq_left hj⟩

/-- An error stands where the furthest failure does. -/
theorem Watch.explain_start {w : Watch} {text : List Char} (file : String)
    (h : w.furthest ≤ text.length) :
    (w.explain (LineIndex.ofText file text) text).span.start.offset = w.furthest := by
  rw [explain_span]
  exact (span_ofText file text h (Nat.min_le_right _ _)).1

/-- What is told about a failure depends on what is left there, and not on what stands in front of the
text. -/
theorem Watch.explain_behind {w w' : Watch} {x : List Char}
    (hfurthest : w.furthest = x.length + w'.furthest) (hexpected : w.expected = w'.expected)
    (file file' : String) (text : List Char) :
    let e := w.explain (LineIndex.ofText file (x ++ text)) (x ++ text)
    let e' := w'.explain (LineIndex.ofText file' text) text
    e.text = e'.text ∧ e.expected = e'.expected ∧ e.hint = e'.hint := by
  have hend : (LineIndex.ofText file (x ++ text)).size ≤ w.furthest
      ↔ (LineIndex.ofText file' text).size ≤ w'.furthest := by
    show (x ++ text).length ≤ w.furthest ↔ text.length ≤ w'.furthest
    rw [hfurthest, List.length_append, Nat.add_le_add_iff_left]
  have hdrop : (x ++ text).drop w.furthest = text.drop w'.furthest := by
    rw [hfurthest, List.drop_append, List.drop_eq_nil_of_le (Nat.le_add_right _ _), List.nil_append,
      Nat.add_sub_cancel_left]
  simp only [explain, hend, hdrop, hexpected]
  split
  · exact ⟨rfl, rfl, rfl⟩
  · exact ⟨rfl, rfl, rfl⟩

namespace Parser

variable (p : Parser α) (file src : String)

/-- The failures of a parse: those on the way of the start rule, and the missing end of the input where
the start rule matches and leaves something over. -/
def Failure (pos : Nat) (label : String) : Prop :=
  let lines := LineIndex.ofText file src.toList
  Misses p.find lines (.ref p.start) ⟨0, src.toList⟩ pos label ∨
    ∃ stop v, Yields p.find lines (.ref p.start) ⟨0, src.toList⟩ (.matched stop v) ∧
      stop.rest ≠ [] ∧ pos = stop.offset ∧ label = endLabel

variable {p file src}

/-- The failures of a parse happen in the text or at its end. -/
theorem Failure.le_length {pos : Nat} {label : String} (h : p.Failure file src pos label) :
    pos ≤ src.toList.length := by
  have within {stop : Cursor} (hr : Cursor.Reaches ⟨0, src.toList⟩ stop) :
      stop.offset ≤ src.toList.length := by
    have hsum := hr.offset_add_length
    simp only at hsum
    omega
  rcases h with h | ⟨stop, v, hy, -, rfl, -⟩
  · obtain ⟨spot, hr, rfl⟩ := h.reaches
    exact within hr
  · exact within hy.reaches

/-- The furthest failure of a parse lies in the text or at its end. -/
theorem furthest_le_length {w : Watch} {failures : List (Nat × String)} (hw : w.Reports failures)
    (hfailures : ∀ pos label, (pos, label) ∈ failures ↔ p.Failure file src pos label) :
    w.furthest ≤ src.toList.length := by
  rcases hw.attained with ⟨-, h0⟩ | ⟨label, hmem⟩
  · omega
  · exact ((hfailures _ _).mp hmem).le_length

/-- What is known at the end of a parse that rejects its text. -/
theorem exists_reports {err : ParseError} (h : p.parse file src = .error (.rejected err)) :
    ∃ (w : Watch) (failures : List (Nat × String)), w.Reports failures ∧
      (∀ pos label, (pos, label) ∈ failures ↔ p.Failure file src pos label) ∧
      err = w.explain (LineIndex.ofText file src.toList) src.toList := by
  have hlog := callRule_logs p.find (LineIndex.ofText file src.toList) (p.depth src.toList.length)
    p.start ⟨0, src.toList⟩ {} rfl
  have hy := callRule_yields p.find (LineIndex.ofText file src.toList) (p.depth src.toList.length)
    p.start ⟨0, src.toList⟩ {}
  rcases hm : p.matchStart (LineIndex.ofText file src.toList) src.toList with ⟨o, w⟩
  rw [show callRule p.find _ _ p.start _ {} = (o, w) from hm] at hlog hy
  simp only [parse, hm] at h
  cases o with
  | failed =>
    cases h
    obtain ⟨failures, rfl, hfailures⟩ := hlog (by simp)
    have hyields := hy.resolve_left (by simp)
    refine ⟨_, failures, Watch.Reports.start.noteAll failures, fun pos label => ?_, rfl⟩
    rw [hfailures]
    refine ⟨.inl, fun h => h.resolve_right ?_⟩
    rintro ⟨stop, v, hy', -⟩
    cases hyields.deterministic hy'
  | matched stop v =>
    obtain ⟨failures, rfl, hfailures⟩ := hlog (by simp)
    have hyields := hy.resolve_left (by simp)
    simp only at h
    split at h
    · cases h
    · rename_i hrest
      cases h
      refine ⟨_, failures ++ [(stop.offset, endLabel)],
        (Watch.Reports.start.noteAll failures).note _ _, fun pos label => ?_, rfl⟩
      rw [List.mem_append, hfailures, List.mem_singleton, Prod.mk.injEq]
      refine or_congr_right ⟨fun ⟨hpos, hlabel⟩ => ?_, fun ⟨stop', v', hy', _, hpos, hlabel⟩ => ?_⟩
      · exact ⟨stop, v, hyields, fun h => hrest (List.isEmpty_iff.mpr h), hpos, hlabel⟩
      · cases hyields.deterministic hy'
        exact ⟨hpos, hlabel⟩
  | raised fault => cases h
  | exhausted => cases h

/-- **A parse error tells the furthest failures exactly.**  It begins at the greatest offset at which
anything failed, or at the front of the text if nothing did, and takes up one character if there is
one.  What it says was expected is the strictly increasing list of the labels that failed there. -/
theorem rejected_furthest {err : ParseError} (h : p.parse file src = .error (.rejected err)) :
    (IsGreatest {pos | ∃ label, p.Failure file src pos label} err.span.start.offset ∨
      err.span.start.offset = 0 ∧ ∀ pos label, ¬ p.Failure file src pos label) ∧
    err.span = (LineIndex.ofText file src.toList).span err.span.start.offset
      (min (err.span.start.offset + 1) src.length : Nat) ∧
    err.span.stop.offset = min (err.span.start.offset + 1) src.length ∧
    err.expected.Pairwise (· < ·) ∧
    ∀ label, label ∈ err.expected ↔ p.Failure file src err.span.start.offset label := by
  obtain ⟨w, failures, hw, hfailures, rfl⟩ := exists_reports h
  have hle := furthest_le_length hw hfailures
  have hspan := w.explain_span (LineIndex.ofText file src.toList) src.toList
  have hsize : (LineIndex.ofText file src.toList).size = src.length := String.length_toList
  have hoffsets := span_ofText file src.toList hle (Nat.min_le_right (w.furthest + 1) _)
  rw [String.length_toList] at hoffsets
  rw [Watch.explain_expected, hspan, hsize, hoffsets.1, hoffsets.2]
  refine ⟨?_, rfl, rfl, hw.sorted, fun label => by rw [hw.expected, hfailures]⟩
  rcases hw.attained with ⟨rfl, h0⟩ | ⟨label, hmem⟩
  · refine .inr ⟨h0, fun pos label hf => ?_⟩
    exact absurd ((hfailures pos label).mpr hf) List.not_mem_nil
  · refine .inl ⟨⟨label, (hfailures _ _).mp hmem⟩, ?_⟩
    rintro pos ⟨label', hf⟩
    exact hw.furthest _ ((hfailures pos label').mpr hf)

end Parser

/-- Rows of pairs of brackets, with blanks in front of each bracket that opens and at the end of a row,
and no semicolon behind a row. -/
def brackets : Grammar Unit where
  start := "Row"
  rules :=
    [⟨"Blanks", .repeated 0 (.optional (.literal " "))⟩,
      ⟨"Pair", .seq [.ref "Blanks", .literal "[", .ref "Row", .literal "]"]⟩,
      ⟨"Row", .seq [.repeated 0 (.ref "Pair"), .not (.literal ";"), .ref "Blanks"]⟩]

/-- The parser of rows of brackets. -/
def bracketParser : Parser Unit where
  start := brackets.start
  latestFirst := brackets.rules.reverse

/-- The semicolon is tried inside a lookahead, and only the lookahead itself is told. -/
theorem rejected_furthest_brackets : ∃ err,
    bracketParser.parse "" "[];" = .error (.rejected err) ∧ err.span.start.offset = 2 ∧
      err.expected = ["\" \"", "\"[\"", "not \";\""] ∧
      ∀ label, label ∈ err.expected ↔ bracketParser.Failure "" "[];" 2 label :=
  ⟨_, rfl, rfl, by decide, (Parser.rejected_furthest rfl).2.2.2.2⟩

end MessageIdl.Peg
