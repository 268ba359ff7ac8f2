import MessageIdl.Proofs.Peg.LeftRecursion
import MessageIdl.Proofs.Peg.Statements

/-!
# Failures are explained

A choice and a repetition tell no failure of their own.  As long as no choice is empty and no
repetition has a minimum above one, each failure goes back to one that is told: that of a terminal, of
the end of the input or of a negative lookahead, and not in front of where the match was tried.

* `Expr.plain`, `Grammar.plain`: no choice is empty, and the minimum of a repetition is 0 or 1.
* `Explained`, `Yields.explained`: a plain expression that fails expects something there or behind.
* `Expr.run_explains`: the matcher notes it, unless it is inside a lookahead.
* `Parser.explain_rejected`: what a parse error of a plain grammar has at the least.
* `RightSide.symbols`, `Statement.grammar_plain`: statements that are written with plain symbols make a
  plain grammar.
-/

namespace MessageIdl.Peg

open MessageIdl.Source

variable {α : Type}

/-! ### Plain expressions -/

namespace Expr

mutual

/-- Whether no choice in an expression is empty, and each repetition in it has the minimum 0 or 1. -/
def plain : Expr α → Bool
  | .seq items => plainParts items
  | .choice alternatives => !alternatives.isEmpty && plainParts alternatives
  | .repeated least body => (least == 0 || least == 1) && plain body
  | .optional body => plain body
  | .not body => plain body
  | .action _ body => plain body
  | _ => true

/-- Whether the parts of a compound expression are plain. -/
def plainParts : List (Expr α) → Bool
  | [] => true
  | e :: rest => plain e && plainParts rest

end

theorem plainParts_iff {es : List (Expr α)} : plainParts es = true ↔ ∀ e ∈ es, e.plain = true := by
  induction es with
  | nil => simp [plainParts]
  | cons e es ih => rw [plainParts, Bool.and_eq_true, ih, List.forall_mem_cons]

theorem plain_seq {es : List (Expr α)} : (Expr.seq es).plain = true ↔ ∀ e ∈ es, e.plain = true := by
  rw [plain, plainParts_iff]

theorem plain_choice {es : List (Expr α)} :
    (Expr.choice es).plain = true ↔ es ≠ [] ∧ ∀ e ∈ es, e.plain = true := by
  rw [plain, Bool.and_eq_true, plainParts_iff, Bool.not_eq_true', ← Bool.not_eq_true,
    List.isEmpty_iff]

theorem plain_repeated {least : Int} {e : Expr α} :
    (Expr.repeated least e).plain = true ↔ (least = 0 ∨ least = 1) ∧ e.plain = true := by
  rw [plain, Bool.and_eq_true, Bool.or_eq_true, beq_iff_eq, beq_iff_eq]

end Expr

/-- Whether all rules of a grammar are plain. -/
def Grammar.plain (g : Grammar α) : Bool := g.rules.all (·.body.plain)

/-- The parser of a plain grammar finds plain rules only. -/
theorem Grammar.plain_find {g : Grammar α} {p : Parser α} (hp : Parser.ofGrammar g = .ok p)
    (plain : g.plain = true) (name : String) (body : Expr α) (h : p.find name = some body) :
    body.plain = true := by
  obtain ⟨-, rfl⟩ := Parser.ofGrammar_eq_ok_iff.mp hp
  obtain ⟨r, listed, -, rfl⟩ := Parser.find_rule h
  exact List.all_eq_true.mp plain r (List.mem_reverse.mp listed)

/-! ### Each failure goes back to one that is told -/

/-- While `e` is tried at `c` something is expected there or behind and not found. -/
def Explained (find : String → Option (Expr α)) (lines : LineIndex) (e : Expr α) (c : Cursor) : Prop :=
  ∃ pos label, c.offset ≤ pos ∧ Misses find lines e c pos label

section Explained

variable {find : String → Option (Expr α)} {lines : LineIndex} {e part : Expr α} {c mid : Cursor}

/-- What explains a part that is tried there, or further on, explains the whole. -/
theorem Explained.of_part (h : Explained find lines part mid) (later : c.offset ≤ mid.offset)
    (whole : ∀ pos label, Misses find lines part mid pos label → Misses find lines e c pos label) :
    Explained find lines e c := by
  obtain ⟨pos, label, there, misses⟩ := h
  exact ⟨pos, label, Nat.le_trans later there, whole pos label misses⟩

/-- **A failure is explained**, by induction on the derivation.  A repetition that has to match once
fails where it collects nothing, so what is said of failures is said of rounds without values as
well. -/
theorem Yields.explained_or_absent (rules : ∀ name body, find name = some body → body.plain = true)
    {o : Outcome α} (h : Yields find lines e c o) (plain : e.plain = true) :
    (o = .failed → Explained find lines e c) ∧
      ∀ body stop, e = .repeated 0 body → o = .matched stop (.list []) →
        Explained find lines body c := by
  induction h with
  | literal_failed absent => exact ⟨fun _ => ⟨_, _, Nat.le_refl _, .literal absent⟩, nofun⟩
  | pattern_failed absent => exact ⟨fun _ => ⟨_, _, Nat.le_refl _, .pattern absent⟩, nofun⟩
  | endOfInput_failed more => exact ⟨fun _ => ⟨_, _, Nat.le_refl _, .endOfInput more⟩, nofun⟩
  | not_matched matched => exact ⟨fun _ => ⟨_, _, Nat.le_refl _, .not matched⟩, nofun⟩
  | ref defined _ ih =>
    exact ⟨fun fails => ((ih (rules _ _ defined)).1 fails).of_part (Nat.le_refl _)
      fun _ _ => .ref defined, nofun⟩
  | seq_stop _ _ ih =>
    have first := (List.forall_mem_cons.mp (Expr.plain_seq.mp plain)).1
    exact ⟨fun fails => ((ih first).1 fails).of_part (Nat.le_refl _) fun _ _ => .seq_head, nofun⟩
  | seq_later_stop matched _ _ _ ih =>
    have later := Expr.plain_seq.mpr (List.forall_mem_cons.mp (Expr.plain_seq.mp plain)).2
    exact ⟨fun fails => ((ih later).1 fails).of_part matched.reaches.offset_le
      fun _ _ => .seq_tail matched, nofun⟩
  | choice_nil => exact absurd rfl (Expr.plain_choice.mp plain).1
  | choice_commit _ committed _ => exact ⟨fun fails => absurd fails committed, nofun⟩
  | choice_next _ _ ih _ =>
    have first := (List.forall_mem_cons.mp (Expr.plain_choice.mp plain).2).1
    exact ⟨fun _ => ((ih first).1 rfl).of_part (Nat.le_refl _) fun _ _ => .choice_head, nofun⟩
  | round_last _ ih =>
    refine ⟨nofun, fun body stop same _ => ?_⟩
    cases same
    exact (ih (Expr.plain_repeated.mp plain).2).1 rfl
  | @repeated_short _ _ _ _ vs least rounds few ih =>
    have bounds := Expr.plain_repeated.mp plain
    have once := bounds.1.resolve_left least
    subst once
    have none : vs = [] := List.length_eq_zero_iff.mp (by omega)
    subst none
    have body := (ih (Expr.plain_repeated.mpr ⟨.inl rfl, bounds.2⟩)).2 _ _ rfl rfl
    exact ⟨fun _ => body.of_part (Nat.le_refl _) fun _ _ => .round, fun _ _ same => nomatch same⟩
  | optional_present _ present _ => exact ⟨fun fails => absurd fails present, nofun⟩
  | action_stop _ _ ih =>
    exact ⟨fun fails => ((ih plain).1 fails).of_part (Nat.le_refl _) fun _ _ => .action, nofun⟩
  | round_empty _ _ _ | round_more _ _ _ _ _ =>
    exact ⟨nofun, fun _ _ _ empty => nomatch empty⟩
  | repeated_enough least _ _ _ =>
    refine ⟨nofun, fun _ _ same _ => ?_⟩
    cases same
    exact absurd rfl least
  | _ => exact ⟨nofun, nofun⟩

theorem Yields.explained (rules : ∀ name body, find name = some body → body.plain = true)
    (plain : e.plain = true) (h : Yields find lines e c .failed) : Explained find lines e c :=
  (h.explained_or_absent rules plain).1 rfl

end Explained

/-- **The matcher notes what explains a failure**, together with all other failures on the way, unless
it is inside a lookahead. -/
theorem Expr.run_explains {find : String → Option (Expr α)}
    (rules : ∀ name body, find name = some body → body.plain = true) (lines : LineIndex)
    (depth : Nat) {e : Expr α} (plain : e.plain = true) (c : Cursor) {w : Watch} (audible : w.muted = 0)
    (fails : (e.run (callRule find lines depth) lines c w).1 = .failed) :
    ∃ failures : List (Nat × String),
      (e.run (callRule find lines depth) lines c w).2 = w.noteAll failures ∧
      (∀ pos label, (pos, label) ∈ failures ↔ Misses find lines e c pos label) ∧
      ∃ f ∈ failures, c.offset ≤ f.1 := by
  have ends : (e.run (callRule find lines depth) lines c w).1 ≠ .exhausted := by
    rw [fails]
    exact nofun
  have yields := Expr.run_callRule_yields ends
  rw [fails] at yields
  obtain ⟨failures, noted, told⟩ := e.run_callRule_logs c w audible ends
  obtain ⟨pos, label, there, misses⟩ := yields.explained rules plain
  exact ⟨failures, noted, told, (pos, label), (told pos label).mpr misses, there⟩

/-! ### Parse errors -/

namespace Parser

variable {p : Parser α} {file src : String} {err : ParseError}

/-- A text is rejected where the start rule fails, or where it leaves something over. -/
theorem yields_of_rejected (h : p.parse file src = .error (.rejected err)) :
    let start (o : Outcome α) := Yields p.find (LineIndex.ofText file src.toList) (.ref p.start)
      ⟨0, src.toList⟩ o
    start .failed ∨ ∃ stop v, start (.matched stop v) ∧ stop.rest ≠ [] := by
  intro start
  have yields := callRule_yields p.find (LineIndex.ofText file src.toList) (p.depth src.toList.length)
    p.start ⟨0, src.toList⟩ {}
  rcases run : p.matchStart (LineIndex.ofText file src.toList) src.toList with ⟨o, w⟩
  rw [show callRule p.find _ _ p.start _ {} = (o, w) from run] at yields
  simp only [parse, run] at h
  cases o with
  | failed => exact .inl (yields.resolve_left (by simp))
  | matched stop v =>
    simp only at h
    split at h
    · cases h
    · rename_i remains
      have matched := yields.resolve_left (by simp)
      exact .inr ⟨stop, v, matched, fun whole => remains (List.isEmpty_iff.mpr whole)⟩
  | raised fault => cases h
  | exhausted => cases h

/-- Something failed in a parse that rejects its text. -/
theorem exists_failure (rules : ∀ name body, p.find name = some body → body.plain = true)
    (h : p.parse file src = .error (.rejected err)) : ∃ pos label, p.Failure file src pos label := by
  rcases yields_of_rejected h with fails | ⟨stop, v, matched, remains⟩
  · obtain ⟨pos, label, -, misses⟩ := fails.explained rules rfl
    exact ⟨pos, label, .inl misses⟩
  · exact ⟨stop.offset, endLabel, .inr ⟨stop, v, matched, remains, rfl, rfl⟩⟩

end Parser

/-- Where something was expected there is a hint. -/
theorem Watch.explain_hint {w : Watch} (expected : w.expected ≠ []) (lines : LineIndex)
    (text : List Char) : (w.explain lines text).hint.isSome = true := by
  simp only [explain]
  split
  · rfl
  · rw [if_neg fun empty => expected (List.isEmpty_iff.mp empty)]
    rfl

/-- A parse error of a plain grammar says what was expected, in increasing order, and has a hint. -/
theorem Parser.explain_rejected {p : Parser α} {file src : String} {err : ParseError}
    (rules : ∀ name body, p.find name = some body → body.plain = true)
    (h : p.parse file src = .error (.rejected err)) :
    err.expected ≠ [] ∧ err.expected.Pairwise (· < ·) ∧ err.hint.isSome = true := by
  obtain ⟨pos, label, failure⟩ := exists_failure rules h
  obtain ⟨w, failures, reports, same, rfl⟩ := exists_reports h
  have nonempty : w.expected ≠ [] := by
    rcases reports.attained with ⟨none, -⟩ | ⟨label', furthest⟩
    · rw [none] at same
      exact absurd ((same pos label).mpr failure) List.not_mem_nil
    · exact List.ne_nil_of_mem ((reports.expected label').mpr furthest)
  rw [Watch.explain_expected]
  exact ⟨nonempty, reports.sorted, w.explain_hint nonempty _ _⟩

/-! ### Written grammars -/

/-- The symbols that are written in a right-hand side. -/
def RightSide.symbols : RightSide α → List (Expr α)
  | .symbol e => [e]
  | .rule _ => []
  | .endOfInput => []
  | .marked _ side => side.symbols
  | .and left right => left.symbols ++ right.symbols
  | .or left right => left.symbols ++ right.symbols
  | .bind side _ => side.symbols

/-- A mark keeps a symbol plain. -/
theorem Mark.plain_on (m : Mark) {e : Expr α} (plain : e.plain = true) : (m.on e).plain = true := by
  cases m with
  | many => exact Expr.plain_repeated.mpr ⟨.inl rfl, plain⟩
  | many1 => exact Expr.plain_repeated.mpr ⟨.inr rfl, plain⟩
  | opt => exact plain
  | notAhead => exact plain

/-- The rows of a right-hand side are plain if the symbols in it are, by induction on how it is put
together. -/
theorem RightSide.plain_rows {side : RightSide α} (plain : ∀ e ∈ side.symbols, e.plain = true) :
    ∀ row ∈ side.rows, (Expr.seq row).plain = true := by
  induction side with
  | symbol e =>
    intro row listed
    cases List.mem_singleton.mp listed
    exact Expr.plain_seq.mpr plain
  | rule name | endOfInput =>
    intro row listed
    cases List.mem_singleton.mp listed
    rfl
  | marked m side ih =>
    intro row listed
    obtain ⟨old, listed', rfl⟩ := List.mem_map.mp listed
    have items := Expr.plain_seq.mp (ih plain old listed')
    apply Expr.plain_seq.mpr
    intro e inside
    obtain ⟨e', inside', rfl⟩ := List.mem_map.mp inside
    exact m.plain_on (items e' inside')
  | and left right ihleft ihright =>
    obtain ⟨first, last⟩ := List.forall_mem_append.mp plain
    intro row listed
    obtain ⟨front, listed', more⟩ := List.mem_flatMap.mp listed
    obtain ⟨back, listed'', rfl⟩ := List.mem_map.mp more
    exact Expr.plain_seq.mpr (List.forall_mem_append.mpr
      ⟨Expr.plain_seq.mp (ihleft first front listed'),
        Expr.plain_seq.mp (ihright last back listed'')⟩)
  | or left right ihleft ihright =>
    obtain ⟨first, last⟩ := List.forall_mem_append.mp plain
    intro row listed
    rcases List.mem_append.mp listed with listed' | listed'
    · exact ihleft first row listed'
    · exact ihright last row listed'
  | bind side act ih => exact ih plain

/-- A rule with alternatives is plain if they are. -/
theorem plain_ruleBody {bodies : List (Expr α)} (nonempty : bodies ≠ [])
    (plain : ∀ body ∈ bodies, body.plain = true) : (ruleBody bodies).plain = true := by
  unfold ruleBody
  split
  · exact plain _ (List.mem_singleton_self _)
  · exact Expr.plain_choice.mpr ⟨nonempty, plain⟩

/-- A grammar is plain if the alternatives that it lists are: a rule has one at the least. -/
theorem Grammar.Lists.plain {g : Grammar α} {added : List (String × Expr α)} (lists : g.Lists added)
    (plain : ∀ a ∈ added, a.2.plain = true) : g.plain = true := by
  rw [Grammar.plain, lists.rules_eq, List.all_map, List.all_eq_true]
  intro name listed
  obtain ⟨a, adds, same⟩ := List.mem_map.mp (List.mem_eraseDups.mp listed)
  have kept : a ∈ added.filter fun a => a.1 = name := List.mem_filter.mpr ⟨adds, by simpa using same⟩
  apply plain_ruleBody (List.ne_nil_of_mem (List.mem_map_of_mem kept))
  intro body inside
  obtain ⟨b, inside', rfl⟩ := List.mem_map.mp inside
  exact plain b (List.mem_of_mem_filter inside')

/-- The alternatives of a statement are plain if the symbols that are written in it are. -/
theorem Statement.plain_alternatives {st : Statement α}
    (plain : ∀ e ∈ st.right.symbols, e.plain = true) : ∀ a ∈ st.alternatives, a.2.plain = true := by
  intro a listed
  unfold alternatives at listed
  split at listed
  · obtain ⟨row, listed', rfl⟩ := List.mem_map.mp listed
    exact RightSide.plain_rows plain row listed'
  · cases listed

/-- **Statements that are written with plain symbols make a plain grammar.** -/
theorem Statement.grammar_plain {sts : List (Statement α)}
    (plain : ∀ st ∈ sts, ∀ e ∈ st.right.symbols, e.plain = true) {start : Expr α} {g : Grammar α}
    (h : (performAll sts {}).grammar start = .ok g) : g.plain = true := by
  cases start with
  | ref name =>
    obtain ⟨g', written, -, lists⟩ := Productions.grammar_addAll (added sts) name
    rw [performAll_eq, written] at h
    cases h
    apply lists.plain
    intro a adds
    obtain ⟨st, kept, listed⟩ := List.mem_flatMap.mp adds
    exact plain_alternatives (plain st (List.mem_of_mem_filter kept)) a listed
  | _ => cases h

end MessageIdl.Peg
