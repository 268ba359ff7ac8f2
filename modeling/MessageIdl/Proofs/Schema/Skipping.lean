import MessageIdl.Proofs.Peg.LeftRecursion
import MessageIdl.Proofs.Schema.OpenComments

/-!
# Skipping gaps

At every place of every text the reader skips blanks and comments for as long as there are any.  What it
skips is cut into units in one way only, and it stops where no unit begins.

* `unitBefore`, `Units`: units in front of what follows them, and texts that begin with a row of units.
* `Stuck`: the texts in front of which no unit begins.
* `Units.front`: a row of units in front of a stuck text goes at least as far as any other.
* `exists_units`: such a row begins every text.
* `skips_units`: the reader takes it, one unit in each round.
-/

namespace MessageIdl.Schema

open MessageIdl.Peg MessageIdl.Source

/-- The units that can stand in front of `after`: a blank, a comment up to its line feed, a block comment
up to its first closing mark, and at the end of the input also a comment without its line feed. -/
def unitBefore (after : List Char) : Language Char :=
  {u | u ∈ unitText ∨ after = [] ∧ u ∈ openCommentText}

/-- `Units units t rest`: the text `t` begins with `units` in a row, and `rest` is left behind them. -/
inductive Units : List (List Char) → List Char → List Char → Prop where
  | nil {t} : Units [] t t
  | cons {u units t rest} : u ∈ unitBefore t → Units units t rest → Units (u :: units) (u ++ t) rest

/-- The texts in front of which no unit begins: nothing, a character that begins none, a slash that begins
no comment, and a block comment without a closing mark. -/
inductive Stuck : List Char → Prop where
  | atEnd : Stuck []
  | solid {c r} : c ∉ blanks → c ≠ '/' → Stuck (c :: r)
  | slash {r} : r.head? ≠ some '/' → r.head? ≠ some '*' → Stuck ('/' :: r)
  | unclosed {r} : ¬ ['*', '/'] <:+: r → Stuck ('/' :: '*' :: r)

section Units

variable {find : String → Option (Expr Node)} {lines : LineIndex} {s t r rest u u' : List Char}
  {units : List (List Char)}

theorem Units.eq_append (h : Units units t rest) : t = units.flatten ++ rest := by
  induction h with
  | nil => rfl
  | cons _ _ ih => rw [List.flatten_cons, List.append_assoc, ← ih]

/-! ### One unit -/

theorem ne_nil_of_unitBefore (hu : u ∈ unitBefore t) : u ≠ [] := by
  rcases hu with hu | ⟨-, hu⟩
  · exact unitText_ne_nil hu
  · rintro rfl
    exact nil_not_mem_openCommentText hu

/-- A unit is taken as a whole in front of what it can stand in front of. -/
theorem takes_unitBefore (hu : u ∈ unitBefore t) :
    Takes find lines gapUnit (u ++ t) t (fun _ => True) := by
  rcases hu with hu | ⟨rfl, hu⟩
  · exact takes_gapUnit hu t
  · rw [List.append_nil]
    exact takes_openComment hu

/-- There is one unit at most at the front of a text, since the reader takes each of them. -/
theorem unitBefore_inj (hu : u ∈ unitBefore t) (hu' : u' ∈ unitBefore s) (h : u ++ t = u' ++ s) :
    u = u' ∧ t = s := by
  have htakes {u t : List Char} (hu : u ∈ unitBefore t) :
      Takes rules.find (.ofText "" []) gapUnit (u ++ t) t (fun _ => True) := takes_unitBefore hu
  obtain ⟨_, _, hy, ht, -⟩ := htakes hu ⟨0, u ++ t⟩ rfl
  obtain ⟨_, _, hy', hs, -⟩ := htakes hu' ⟨0, u ++ t⟩ h
  cases hy.deterministic hy'
  obtain rfl : t = s := ht.symm.trans hs
  exact ⟨List.append_cancel_right h, rfl⟩

/-- Behind a slash, only comments may begin a unit. -/
theorem refuses_gapUnit_slash (hline : Refuses find lines lineComment ('/' :: r))
    (hblock : Refuses find lines blockComment ('/' :: r)) :
    Refuses find lines gapUnit ('/' :: r) := by
  have hblank : Refuses find lines blank ('/' :: r) := by
    apply refuses_blank
    intro c hc
    cases hc
    exact slash_not_mem_blanks
  refine .choice fun e he => ?_
  simp only [List.mem_cons, List.not_mem_nil, or_false] at he
  rcases he with rfl | rfl | rfl
  · exact hblank
  · exact hline
  · exact hblock

/-- The text of a comment without a closing mark goes on to the end, and there the mark is missing. -/
theorem refuses_blockComment (h : ¬ ['*', '/'] <:+: r) :
    Refuses find lines blockComment ('/' :: '*' :: r) := by
  have hopen : Takes find lines (terminal .commentOpen) ('/' :: '*' :: r) r _ := Takes.literal _ _
  have hscan : commentTextPattern.scan (r ++ []) = some r.length := by
    show some (beforeClose (r ++ [])) = some r.length
    rw [List.append_nil, beforeClose_eq_length h]
  have htext : Takes find lines (.pattern commentTextPattern) (r ++ []) [] _ := Takes.pattern hscan
  rw [List.append_nil] at htext
  have hclose : Refuses find lines (terminal .commentClose) [] := .literal (by decide)
  exact .row_tail hopen (.row_tail htext hclose.row_head)

/-- **No unit begins in front of a stuck text.** -/
theorem Stuck.refuses (h : Stuck t) : Refuses find lines gapUnit t := by
  cases h with
  | atEnd => exact refuses_gapUnit nofun
  | solid hblank hslash =>
    apply refuses_gapUnit
    intro c hc
    cases hc
    exact ⟨hblank, hslash⟩
  | @slash r hline hblock =>
    apply refuses_gapUnit_slash
    · apply Refuses.pattern
      show scanLineComment ('/' :: r) = none
      unfold scanLineComment
      split
      · rename_i heq
        cases heq
        exact absurd rfl hline
      · rfl
    · apply Refuses.row_head
      apply Refuses.literal
      rintro ⟨s, hs⟩
      cases hs
      exact hblock rfl
  | unclosed hclose => exact refuses_gapUnit_slash (.pattern rfl) (refuses_blockComment hclose)

theorem Stuck.not_unitBefore (h : Stuck (u ++ t)) : u ∉ unitBefore t := by
  intro hu
  have htakes : Takes rules.find (.ofText "" []) gapUnit (u ++ t) t (fun _ => True) :=
    takes_unitBefore hu
  exact htakes.not_failed (c := ⟨0, u ++ t⟩) rfl (h.refuses ⟨0, u ++ t⟩ rfl)

/-- What follows two slashes is the text of a comment, up to a line feed or to the end. -/
theorem exists_lineComment (s : List Char) :
    ∃ u after, '/' :: '/' :: s = u ++ after ∧ u ∈ unitBefore after := by
  by_cases hnl : '\n' ∈ s
  · obtain ⟨line, after, hline, rfl⟩ := exists_line hnl
    refine ⟨_, after, ?_, .inl (lineComment_mem_unitText hline)⟩
    simp only [List.cons_append, List.append_assoc, List.nil_append]
  · exact ⟨'/' :: '/' :: s, [], (List.append_nil _).symm, .inr ⟨rfl, s, hnl, rfl⟩⟩

/-- Where there is a closing mark, the first one ends a block comment. -/
theorem exists_blockComment (h : ['*', '/'] <:+: s) :
    ∃ u after, '/' :: '*' :: s = u ++ after ∧ u ∈ unitBefore after := by
  obtain ⟨after, hafter⟩ := prefix_drop_beforeClose h
  have hsplit := List.take_append_drop (beforeClose s) s
  refine ⟨_, after, ?_, .inl (blockComment_mem_unitText (not_infix_take_beforeClose s))⟩
  conv_lhs => rw [← hsplit, ← hafter]
  simp only [List.cons_append, List.append_assoc, List.nil_append]

/-- **One step.**  A text begins with a unit, or it is stuck. -/
theorem exists_unit_or_stuck (t : List Char) :
    (∃ u after, t = u ++ after ∧ u ∈ unitBefore after) ∨ Stuck t := by
  rcases t with - | ⟨c, r⟩
  · exact .inr .atEnd
  by_cases hblank : c ∈ blanks
  · exact .inl ⟨[c], r, rfl, .inl (blank_mem_unitText hblank)⟩
  by_cases hslash : c = '/'
  · subst hslash
    by_cases hline : r.head? = some '/'
    · obtain ⟨s, rfl⟩ := List.head?_eq_some_iff.mp hline
      exact .inl (exists_lineComment s)
    by_cases hblock : r.head? = some '*'
    · obtain ⟨s, rfl⟩ := List.head?_eq_some_iff.mp hblock
      by_cases hclose : ['*', '/'] <:+: s
      · exact .inl (exists_blockComment hclose)
      · exact .inr (.unclosed hclose)
    · exact .inr (.slash hline hblock)
  · exact .inr (.solid hblank hslash)

/-! ### Units in a row -/

/-- **A row of units in front of a stuck text goes as far as any other**, by induction on the other one:
their first units are the same. -/
theorem Units.front {units' : List (List Char)} {rest' : List Char} (h : Units units t rest)
    (hstuck : Stuck rest) (h' : Units units' t rest') : units' <+: units := by
  induction h' generalizing units with
  | nil => exact List.nil_prefix
  | @cons u units' t rest' hu _ ih =>
    generalize heq : u ++ t = whole at h
    cases h with
    | nil =>
      subst heq
      exact absurd hu hstuck.not_unitBefore
    | cons hu' htail =>
      obtain ⟨rfl, rfl⟩ := unitBefore_inj hu hu' heq
      exact List.prefix_cons_inj _ |>.mpr (ih htail)

/-- Rows of units that leave the same are the same. -/
theorem Units.unique {units' : List (List Char)} (h : Units units t rest) (hstuck : Stuck rest)
    (h' : Units units' t rest) : units' = units :=
  (h.front hstuck h').eq_of_length_le (h'.front hstuck h).length_le

/-- **Every text begins with a row of units in front of a stuck text**, by induction on its length. -/
theorem exists_units (t : List Char) : ∃ units rest, Units units t rest ∧ Stuck rest := by
  induction hn : t.length using Nat.strong_induction_on generalizing t with
  | h n ih =>
    rcases exists_unit_or_stuck t with ⟨u, after, rfl, hu⟩ | hstuck
    · have hlt := length_lt_append (ne_nil_of_unitBefore hu) after
      obtain ⟨units, rest, hunits, hstuck⟩ := ih after.length (hn ▸ hlt) after rfl
      exact ⟨u :: units, rest, .cons hu hunits, hstuck⟩
    · exact ⟨[], t, .nil, hstuck⟩

/-- The reader takes a unit in each round, until it is stuck. -/
theorem Units.takes (h : Units units t rest) (hstuck : Stuck rest) :
    Takes find lines (.repeated 0 gapUnit) t rest
      (fun v => ∃ values, v = .list values ∧ values.length = units.length) := by
  induction h with
  | nil => exact (Takes.many_nil hstuck.refuses).imp fun v hv => ⟨[], hv, rfl⟩
  | @cons u units t rest hu _ ih =>
    have hlt := length_lt_append (ne_nil_of_unitBefore hu) t
    refine ((takes_unitBefore hu).many_cons hlt (ih hstuck)).imp fun v hv => ?_
    obtain ⟨x, xs, -, ⟨values, heq, hlength⟩, rfl⟩ := hv
    cases heq
    exact ⟨x :: xs, rfl, by rw [List.length_cons, List.length_cons, hlength]⟩

end Units

/-! ### The run -/

/-- An expression without references ends with what it yields, whatever bound on nested calls there is. -/
theorem run_of_refs_nil {find : String → Option (Expr Node)} {lines : LineIndex} {e : Expr Node}
    {c : Cursor} {o : Outcome Node} (he : e.refs = []) (hy : Yields find lines e c o) (depth : Nat)
    (w : Watch) : (e.run (callRule find lines depth) lines c w).1 = o := by
  have hnone {name : String} : name ∉ e.refs := by
    rw [he]
    exact List.not_mem_nil
  have hcalls : Expr.CallsAnswer find lines depth e c :=
    ⟨fun name hname => absurd hname.mem_refs hnone, fun name hname => absurd hname hnone⟩
  have hends := Expr.run_answersAt e c hcalls w
  exact (Expr.run_callRule_yields hends).deterministic hy

/-- **Gaps are skipped as far as they go, and are cut into units in one way.**  From every place of every
text the reader skips a row of units, one in each round, and matches behind it.  There no unit begins, any
row of units from the same place is a front of this one, and no other row leaves the same text. -/
theorem skips_units (find : String → Option (Expr Node)) (file : String) (text : List Char)
    (pos depth : Nat) (w : Watch) :
    let lines := LineIndex.ofText file text
    let run := fun e : Expr Node => e.run (callRule find lines depth) lines
    ∃ units stop values,
      (run (.repeated 0 gapUnit) ⟨pos, text.drop pos⟩ w).1 = .matched stop (.list values) ∧
      values.length = units.length ∧
      stop.offset = pos + units.flatten.length ∧
      text.drop pos = units.flatten ++ stop.rest ∧
      Units units (text.drop pos) stop.rest ∧
      (∀ units', Units units' (text.drop pos) stop.rest → units' = units) ∧
      (∀ units' rest', Units units' (text.drop pos) rest' → units' <+: units) ∧
      (∀ w', (run gapUnit stop w').1 = .failed) ∧
      Stuck stop.rest := by
  intro lines run
  obtain ⟨units, rest, hunits, hstuck⟩ := exists_units (text.drop pos)
  have htakes : Takes find lines (.repeated 0 gapUnit) (text.drop pos) rest _ := hunits.takes hstuck
  obtain ⟨stop, v, hy, rfl, values, rfl, hlength⟩ := htakes ⟨pos, text.drop pos⟩ rfl
  have hsum : stop.offset + stop.rest.length = pos + (text.drop pos).length :=
    hy.reaches.offset_add_length
  rw [hunits.eq_append, List.length_append] at hsum
  refine ⟨units, stop, values, run_of_refs_nil rfl hy depth w, hlength, by omega, hunits.eq_append,
    hunits, fun units' h => hunits.unique hstuck h, fun units' rest' h => hunits.front hstuck h,
    fun w' => run_of_refs_nil rfl (hstuck.refuses stop rfl) depth w', hstuck⟩

end MessageIdl.Schema
