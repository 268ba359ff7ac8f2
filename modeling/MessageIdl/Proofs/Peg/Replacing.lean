import MessageIdl.Proofs.Peg.Explaining

/-!
# Expressions that stand for others

An expression can stand for another one if it yields the same and fails alike.  The failures on the way
need not be the same: what differs may be overtaken by a failure further on, or lie in front of the end of
the match, where whatever fails later overtakes it.

* `Agree`: two sets of failures that are the same from some offset on, in front of which nothing counts.
* `Agree.furthest_eq`: what such failures leave to report is the same.
* `Replaces`: one expression can stand for another under other rules; one lemma for each form of
  expressions, and `Replaces.self` for a whole expression.
-/

namespace MessageIdl.Peg

open MessageIdl.Source

variable {α : Type}

/-! ### Failures that agree -/

/-- Failures that are the same from some offset on.  What differs in front of it counts for nothing: that
offset is not behind `s`, where the run goes on, or something failed there or behind. -/
def Agree (s : Nat) (F G : Nat → String → Prop) : Prop :=
  ∃ q, (∀ pos label, q ≤ pos → (F pos label ↔ G pos label)) ∧
    (q ≤ s ∨ ∃ pos label, q ≤ pos ∧ F pos label)

namespace Agree

variable {s s' : Nat} {F F' G G' H : Nat → String → Prop}

theorem of_behind (h : ∀ pos label, s ≤ pos → (F pos label ↔ G pos label)) : Agree s F G :=
  ⟨s, h, .inl (Nat.le_refl s)⟩

theorem of_iff (h : ∀ pos label, F pos label ↔ G pos label) : Agree s F G :=
  of_behind fun pos label _ => h pos label

theorem mono (h : Agree s F G) (later : s ≤ s') : Agree s' F G := by
  obtain ⟨q, same, overtaken⟩ := h
  exact ⟨q, same, overtaken.imp_left fun early => Nat.le_trans early later⟩

theorem congr (h : Agree s F G) (hF : ∀ pos label, F' pos label ↔ F pos label)
    (hG : ∀ pos label, G' pos label ↔ G pos label) : Agree s F' G' := by
  obtain ⟨q, same, overtaken⟩ := h
  refine ⟨q, ?_, overtaken.imp_right ?_⟩
  · intro pos label behind
    rw [hF, hG]
    exact same pos label behind
  · intro ⟨pos, label, behind, fails⟩
    exact ⟨pos, label, behind, (hF pos label).mpr fails⟩

theorem or (h : Agree s F G) (h' : Agree s F' G') :
    Agree s (fun pos label => F pos label ∨ F' pos label)
      (fun pos label => G pos label ∨ G' pos label) := by
  obtain ⟨q, same, overtaken⟩ := h
  obtain ⟨q', same', overtaken'⟩ := h'
  refine ⟨max q q', ?_, ?_⟩
  · intro pos label behind
    exact or_congr (same pos label (by omega)) (same' pos label (by omega))
  · rcases Nat.le_total q q' with order | order
    · rw [Nat.max_eq_right order]
      exact overtaken'.imp_right fun ⟨pos, label, behind, fails⟩ => ⟨pos, label, behind, .inr fails⟩
    · rw [Nat.max_eq_left order]
      exact overtaken.imp_right fun ⟨pos, label, behind, fails⟩ => ⟨pos, label, behind, .inl fails⟩

theorem symm (h : Agree s F G) : Agree s G F := by
  obtain ⟨q, same, overtaken⟩ := h
  refine ⟨q, fun pos label behind => (same pos label behind).symm, overtaken.imp_right ?_⟩
  intro ⟨pos, label, behind, fails⟩
  exact ⟨pos, label, behind, (same pos label behind).mp fails⟩

theorem trans (h : Agree s F G) (h' : Agree s G H) : Agree s F H := by
  obtain ⟨q, same, overtaken⟩ := h
  obtain ⟨q', same', overtaken'⟩ := h'
  refine ⟨max q q', ?_, ?_⟩
  · intro pos label behind
    rw [same pos label (by omega), same' pos label (by omega)]
  · rcases Nat.le_total q q' with order | order
    · rw [Nat.max_eq_right order]
      refine overtaken'.imp_right fun ⟨pos, label, behind, fails⟩ => ⟨pos, label, behind, ?_⟩
      exact (same pos label (Nat.le_trans order behind)).mpr fails
    · rw [Nat.max_eq_left order]
      exact overtaken

/-- A failure where the run goes on, or behind, overtakes all that differs. -/
theorem settle (h : Agree s F G) (fails : ∃ pos label, s ≤ pos ∧ F pos label) : Agree 0 F G := by
  obtain ⟨q, same, overtaken⟩ := h
  refine ⟨q, same, .inr ?_⟩
  rcases overtaken with early | fails'
  · obtain ⟨pos, label, behind, fails⟩ := fails
    exact ⟨pos, label, Nat.le_trans early behind, fails⟩
  · exact fails'

/-- Of failures that agree without a reserve, the furthest are the same. -/
theorem furthest_eq {w w' : Watch} {failures failures' : List (Nat × String)}
    (h : w.Reports failures) (h' : w'.Reports failures')
    (agree : Agree 0 (fun pos label => (pos, label) ∈ failures)
      (fun pos label => (pos, label) ∈ failures')) :
    w.furthest = w'.furthest ∧ w.expected = w'.expected := by
  obtain ⟨q, same, overtaken⟩ := agree
  have reached : q ≤ w.furthest := by
    rcases overtaken with early | ⟨pos, label, behind, fails⟩
    · omega
    · exact Nat.le_trans behind (h.furthest _ fails)
  have le : w.furthest ≤ w'.furthest := by
    rcases h.attained with ⟨-, zero⟩ | ⟨label, fails⟩
    · omega
    · exact h'.furthest _ ((same _ label reached).mp fails)
  have ge : w'.furthest ≤ w.furthest := by
    rcases h'.attained with ⟨-, zero⟩ | ⟨label, fails⟩
    · omega
    · exact h.furthest _ ((same _ label (Nat.le_trans reached le)).mpr fails)
  have furthest := Nat.le_antisymm le ge
  refine ⟨furthest, h.sorted.eq_of_mem_iff h'.sorted fun label => ?_⟩
  rw [h.expected, h'.expected, ← furthest]
  exact same _ label reached

end Agree

/-- Failures that agree as far as the outcome asks for: what fails may still be followed by other
alternatives at any place, what matches only by what comes behind it, and a fault tells no failure. -/
def Outcome.Agrees (o : Outcome α) (F G : Nat → String → Prop) : Prop :=
  match o with
  | .failed => Agree 0 F G
  | .matched stop _ => Agree stop.offset F G
  | _ => True

namespace Outcome.Agrees

variable {o : Outcome α} {F F' G G' H : Nat → String → Prop}

theorem of_iff (h : ∀ pos label, F pos label ↔ G pos label) : o.Agrees F G := by
  cases o with
  | failed => exact Agree.of_iff h
  | matched stop v => exact Agree.of_iff h
  | _ => trivial

theorem congr (h : o.Agrees F G) (hF : ∀ pos label, F' pos label ↔ F pos label)
    (hG : ∀ pos label, G' pos label ↔ G pos label) : o.Agrees F' G' := by
  cases o with
  | failed => exact Agree.congr h hF hG
  | matched stop v => exact Agree.congr h hF hG
  | _ => trivial

theorem symm (h : o.Agrees F G) : o.Agrees G F := by
  cases o with
  | failed => exact Agree.symm h
  | matched stop v => exact Agree.symm h
  | _ => trivial

theorem trans (h : o.Agrees F G) (h' : o.Agrees G H) : o.Agrees F H := by
  cases o with
  | failed => exact Agree.trans h h'
  | matched stop v => exact Agree.trans h h'
  | _ => trivial

/-- What failed before agrees without a reserve. -/
theorem or_of_failed (h : Agree 0 F G) (h' : o.Agrees F' G') :
    o.Agrees (fun pos label => F pos label ∨ F' pos label)
      (fun pos label => G pos label ∨ G' pos label) := by
  cases o with
  | failed => exact h.or h'
  | matched stop v => exact (h.mono (Nat.zero_le _)).or h'
  | _ => trivial

end Outcome.Agrees

/-! ### Expressions that stand for others -/

/-- Whatever `e` yields under the rules `find`, `e'` yields under the rules `find'`, and the failures on
their ways agree. -/
def Replaces (find find' : String → Option (Expr α)) (lines : LineIndex) (e e' : Expr α) : Prop :=
  ∀ c o, Yields find lines e c o →
    Yields find' lines e' c o ∧ o.Agrees (Misses find lines e c) (Misses find' lines e' c)

namespace Replaces

variable {find find' find'' : String → Option (Expr α)} {lines : LineIndex} {e e' e'' : Expr α}
  {es es' : List (Expr α)}

theorem refl : Replaces find find lines e e :=
  fun _ _ yields => ⟨yields, .of_iff fun _ _ => Iff.rfl⟩

theorem trans (h : Replaces find find' lines e e') (h' : Replaces find' find'' lines e' e'') :
    Replaces find find'' lines e e'' := by
  intro c o yields
  obtain ⟨yields', agrees⟩ := h c o yields
  obtain ⟨yields'', agrees'⟩ := h' c o yields'
  exact ⟨yields'', agrees.trans agrees'⟩

theorem literal (text : String) : Replaces find find' lines (.literal text) (.literal text) := by
  intro c o yields
  cases yields with
  | literal there =>
    exact ⟨.literal there, .of_iff fun pos label =>
      iff_of_false (not_misses_literal there) (not_misses_literal there)⟩
  | literal_failed absent =>
    exact ⟨.literal_failed absent, .of_iff fun pos label =>
      (misses_literal absent).trans (misses_literal absent).symm⟩

theorem pattern (p : Pattern) : Replaces find find' lines (.pattern p) (.pattern p) := by
  intro c o yields
  cases yields with
  | pattern there =>
    exact ⟨.pattern there, .of_iff fun pos label =>
      iff_of_false (not_misses_pattern there) (not_misses_pattern there)⟩
  | pattern_failed absent =>
    exact ⟨.pattern_failed absent, .of_iff fun pos label =>
      (misses_pattern absent).trans (misses_pattern absent).symm⟩

theorem endOfInput : Replaces find find' lines .endOfInput .endOfInput := by
  intro c o yields
  cases yields with
  | endOfInput nothing =>
    exact ⟨.endOfInput nothing, .of_iff fun pos label =>
      iff_of_false (not_misses_endOfInput nothing) (not_misses_endOfInput nothing)⟩
  | endOfInput_failed more =>
    exact ⟨.endOfInput_failed more, .of_iff fun pos label =>
      (misses_endOfInput more).trans (misses_endOfInput more).symm⟩

theorem hole : Replaces find find' lines (.hole : Expr α) .hole := by
  intro c o yields
  cases yields
  exact ⟨.hole, trivial⟩

theorem ref {name : String} {body body' : Expr α} (defined : find name = some body)
    (defined' : find' name = some body') (h : Replaces find find' lines body body') :
    Replaces find find' lines (.ref name) (.ref name) := by
  intro c o yields
  cases yields with
  | ref found yields =>
    rw [defined] at found
    cases found
    obtain ⟨yields', agrees⟩ := h c o yields
    exact ⟨.ref defined' yields', agrees.congr (fun _ _ => misses_ref defined)
      fun _ _ => misses_ref defined'⟩
  | ref_undefined missing =>
    rw [defined] at missing
    cases missing

theorem ref_undefined {name : String} (missing : find name = none) (missing' : find' name = none) :
    Replaces find find' lines (.ref name) (.ref name) := by
  intro c o yields
  cases yields with
  | ref found _ =>
    rw [missing] at found
    cases found
  | ref_undefined _ => exact ⟨.ref_undefined missing', trivial⟩

theorem row_nil : Replaces find find' lines (.seq []) (.seq []) := by
  intro c o yields
  cases yields
  exact ⟨.seq_nil, .of_iff fun _ _ => iff_of_false not_misses_seq_nil not_misses_seq_nil⟩

/-- **A row.**  Where it fails behind its first item, something is told there or behind, and the reserve
under which the failures of that item agree falls away. -/
theorem row_cons (rules : ∀ name body, find name = some body → body.plain = true)
    (plain : (Expr.seq es).plain = true) (h : Replaces find find' lines e e')
    (hs : Replaces find find' lines (.seq es) (.seq es')) :
    Replaces find find' lines (.seq (e :: es)) (.seq (e' :: es')) := by
  intro c o yields
  cases yields with
  | seq_cons first others =>
    obtain ⟨first', agrees⟩ := h _ _ first
    obtain ⟨others', agrees'⟩ := hs _ _ others
    refine ⟨.seq_cons first' others', ?_⟩
    exact ((Agree.mono agrees others.reaches.offset_le).or agrees').congr
      (fun _ _ => misses_seq_matched first) fun _ _ => misses_seq_matched first'
  | seq_stop stops unmatched =>
    obtain ⟨stops', agrees⟩ := h _ _ stops
    exact ⟨.seq_stop stops' unmatched, agrees.congr (fun _ _ => misses_seq_stop stops unmatched)
      fun _ _ => misses_seq_stop stops' unmatched⟩
  | @seq_later_stop _ _ _ mid _ _ first stops unmatched =>
    obtain ⟨first', agrees⟩ := h _ _ first
    obtain ⟨stops', agrees'⟩ := hs _ _ stops
    refine ⟨.seq_later_stop first' stops' unmatched, ?_⟩
    cases o with
    | failed =>
      obtain ⟨pos, label, behind, misses⟩ := stops.explained rules plain
      have both := Agree.or agrees (Agree.mono agrees' (Nat.zero_le mid.offset))
      have settled := both.settle ⟨pos, label, behind, .inr misses⟩
      exact settled.congr (fun _ _ => misses_seq_matched first) fun _ _ => misses_seq_matched first'
    | matched stop v => exact absurd rfl (unmatched stop v)
    | _ => trivial

theorem choice_nil : Replaces find find' lines (.choice []) (.choice []) := by
  intro c o yields
  cases yields
  exact ⟨.choice_nil, .of_iff fun _ _ => iff_of_false not_misses_choice_nil not_misses_choice_nil⟩

theorem choice_cons (h : Replaces find find' lines e e')
    (hs : Replaces find find' lines (.choice es) (.choice es')) :
    Replaces find find' lines (.choice (e :: es)) (.choice (e' :: es')) := by
  intro c o yields
  cases yields with
  | choice_commit first committed =>
    obtain ⟨first', agrees⟩ := h _ _ first
    exact ⟨.choice_commit first' committed,
      agrees.congr (fun _ _ => misses_choice_commit first committed)
        fun _ _ => misses_choice_commit first' committed⟩
  | choice_next first others =>
    obtain ⟨first', agrees⟩ := h _ _ first
    obtain ⟨others', agrees'⟩ := hs _ _ others
    exact ⟨.choice_next first' others', (Outcome.Agrees.or_of_failed agrees agrees').congr
      (fun _ _ => misses_choice_failed first) fun _ _ => misses_choice_failed first'⟩

/-- **Rounds**, by induction on the match. -/
theorem many (h : Replaces find find' lines e e') :
    Replaces find find' lines (.repeated 0 e) (.repeated 0 e') := by
  intro c o yields
  generalize whole : Expr.repeated 0 e = r at yields
  induction yields with
  | round_last fails =>
    cases whole
    obtain ⟨fails', agrees⟩ := h _ _ fails
    exact ⟨.round_last fails', (Agree.mono agrees (Nat.zero_le _)).congr
      (fun _ _ => misses_round_last fails nofun) fun _ _ => misses_round_last fails' nofun⟩
  | @round_empty _ c stop v matched same =>
    cases whole
    obtain ⟨matched', agrees⟩ := h _ _ matched
    have last : ∀ mid x, Outcome.matched stop v = .matched mid x → mid.offset = c.offset := by
      intro mid x heq
      cases heq
      exact same
    exact ⟨.round_empty matched' same, agrees.congr (fun _ _ => misses_round_last matched last)
      fun _ _ => misses_round_last matched' last⟩
  | round_more matched moved others _ ih =>
    cases whole
    obtain ⟨matched', agrees⟩ := h _ _ matched
    obtain ⟨others', agrees'⟩ := ih rfl
    exact ⟨.round_more matched' moved others',
      ((Agree.mono agrees others.reaches.offset_le).or agrees').congr
        (fun _ _ => misses_round_more matched moved) fun _ _ => misses_round_more matched' moved⟩
  | round_raised raises =>
    cases whole
    exact ⟨.round_raised (h _ _ raises).1, trivial⟩
  | round_later_raised matched moved _ _ ih =>
    cases whole
    exact ⟨.round_later_raised (h _ _ matched).1 moved (ih rfl).1, trivial⟩
  | repeated_enough least | repeated_short least | repeated_raised least =>
    cases whole
    exact absurd rfl least
  | _ => cases whole

/-- A round that has to match: where there is none, something is told there or behind. -/
theorem many1 (rules : ∀ name body, find name = some body → body.plain = true)
    (plain : e.plain = true) (h : Replaces find find' lines e e') :
    Replaces find find' lines (.repeated 1 e) (.repeated 1 e') := by
  have least {find : String → Option (Expr α)} {e : Expr α} {c : Cursor} (pos : Nat) (label : String) :
      Misses find lines (.repeated 1 e) c pos label ↔ Misses find lines (.repeated 0 e) c pos label :=
    ⟨Misses.of_least, Misses.of_least⟩
  intro c o yields
  have fails_here := yields
  cases yields with
  | repeated_enough one rounds enough =>
    obtain ⟨rounds', agrees⟩ := h.many _ _ rounds
    exact ⟨.repeated_enough one rounds' enough, agrees.congr least least⟩
  | repeated_short one rounds few =>
    obtain ⟨rounds', agrees⟩ := h.many _ _ rounds
    refine ⟨.repeated_short one rounds' few, ?_⟩
    cases rounds with
    | round_last _ =>
      obtain ⟨pos, label, behind, misses⟩ :=
        fails_here.explained rules (Expr.plain_repeated.mpr ⟨.inr rfl, plain⟩)
      exact (Agree.settle (Agree.congr agrees least least) ⟨pos, label, behind, misses⟩)
    | round_empty _ _ => exact absurd few (by simp)
    | round_more _ _ _ => exact absurd few (by rw [List.length_cons]; omega)
    | repeated_enough zero _ _ => exact absurd rfl zero
  | repeated_raised one raises => exact ⟨.repeated_raised one (h.many _ _ raises).1, trivial⟩

theorem optional (h : Replaces find find' lines e e') :
    Replaces find find' lines (.optional e) (.optional e') := by
  intro c o yields
  cases yields with
  | optional_present there present =>
    obtain ⟨there', agrees⟩ := h _ _ there
    exact ⟨.optional_present there' present,
      agrees.congr (fun _ _ => misses_optional) fun _ _ => misses_optional⟩
  | optional_absent fails =>
    obtain ⟨fails', agrees⟩ := h _ _ fails
    exact ⟨.optional_absent fails', (Agree.mono agrees (Nat.zero_le _)).congr
      (fun _ _ => misses_optional) fun _ _ => misses_optional⟩

/-- What is tried inside a lookahead is not told; the lookahead itself is, by its written form. -/
theorem not (h : Replaces find find' lines e e') (display : e.display = e'.display) :
    Replaces find find' lines (.not e) (.not e') := by
  intro c o yields
  cases yields with
  | not_failed fails =>
    have fails' := (h _ _ fails).1
    exact ⟨.not_failed fails', .of_iff fun _ _ => iff_of_false
      (not_misses_not fails Outcome.unmatched_failed) (not_misses_not fails' Outcome.unmatched_failed)⟩
  | not_matched matched =>
    have matched' := (h _ _ matched).1
    refine ⟨.not_matched matched', .of_iff fun pos label => ?_⟩
    rw [misses_not matched, misses_not matched', display]
  | not_raised raises => exact ⟨.not_raised (h _ _ raises).1, trivial⟩

theorem action (act : Action α) (h : Replaces find find' lines e e') :
    Replaces find find' lines (.action act e) (.action act e') := by
  intro c o yields
  cases yields with
  | action matched built =>
    obtain ⟨matched', agrees⟩ := h _ _ matched
    exact ⟨.action matched' built,
      Agree.congr agrees (fun _ _ => misses_action) fun _ _ => misses_action⟩
  | action_raised matched refused =>
    exact ⟨.action_raised (h _ _ matched).1 refused, trivial⟩
  | action_stop stops unmatched =>
    obtain ⟨stops', agrees⟩ := h _ _ stops
    exact ⟨.action_stop stops' unmatched,
      agrees.congr (fun _ _ => misses_action) fun _ _ => misses_action⟩

mutual

/-- **An expression stands for itself** under other rules if the rules that it refers to do. -/
theorem self (rules : ∀ name body, find name = some body → body.plain = true) :
    ∀ e : Expr α, e.plain = true →
      (∀ name ∈ e.refs, Replaces find find' lines (.ref name) (.ref name)) →
      Replaces find find' lines e e
  | .literal text, _, _ => literal text
  | .pattern p, _, _ => pattern p
  | .seq items, plain, refs => self_row rules items (Expr.plain_seq.mp plain) refs
  | .choice alternatives, plain, refs =>
      self_choice rules alternatives (Expr.plain_choice.mp plain).2 refs
  | .repeated least body, plain, refs => by
      obtain ⟨bounds, plain⟩ := Expr.plain_repeated.mp plain
      have h := self rules body plain refs
      rcases bounds with rfl | rfl
      · exact h.many
      · exact h.many1 rules plain
  | .optional body, plain, refs => (self rules body plain refs).optional
  | .not body, plain, refs => (self rules body plain refs).not rfl
  | .ref name, _, refs => refs name List.mem_cons_self
  | .action act body, plain, refs => (self rules body plain refs).action act
  | .endOfInput, _, _ => endOfInput
  | .hole, _, _ => hole

theorem self_row (rules : ∀ name body, find name = some body → body.plain = true) :
    ∀ es : List (Expr α), (∀ e ∈ es, e.plain = true) →
      (∀ name ∈ Expr.refsOfParts es, Replaces find find' lines (.ref name) (.ref name)) →
      Replaces find find' lines (.seq es) (.seq es)
  | [], _, _ => row_nil
  | e :: es, plain, refs => by
      obtain ⟨first, others⟩ := List.forall_mem_cons.mp plain
      refine row_cons rules (Expr.plain_seq.mpr others) (self rules e first fun name inside => ?_)
        (self_row rules es others fun name inside => ?_)
      · exact refs name (List.mem_append_left _ inside)
      · exact refs name (List.mem_append_right _ inside)

theorem self_choice (rules : ∀ name body, find name = some body → body.plain = true) :
    ∀ es : List (Expr α), (∀ e ∈ es, e.plain = true) →
      (∀ name ∈ Expr.refsOfParts es, Replaces find find' lines (.ref name) (.ref name)) →
      Replaces find find' lines (.choice es) (.choice es)
  | [], _, _ => choice_nil
  | e :: es, plain, refs => by
      obtain ⟨first, others⟩ := List.forall_mem_cons.mp plain
      refine choice_cons (self rules e first fun name inside => ?_)
        (self_choice rules es others fun name inside => ?_)
      · exact refs name (List.mem_append_left _ inside)
      · exact refs name (List.mem_append_right _ inside)

end

end Replaces

end MessageIdl.Peg
