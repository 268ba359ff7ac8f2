import MessageIdl.Proofs.Peg.Shifting
import MessageIdl.Proofs.Peg.Trying

/-!
# Texts that are cut off

On a text that is cut off an expression does what it does on the whole text, unless it fails at the cut.
This is shown for terminals and for rules that are taken as a whole, and lifted to all expressions that
come down to them.

* `Expr.BuiltFrom`, `RulesFrom`: what expressions and rules come down to.
* `Keeps`, `Yields.kept`, `Tries.kept`: how the text behind a match, or where something is tried, is
  related to the text in front.
* `Misses.exists_part`: a failure is one of a terminal or of a rule that is taken as a whole.
* `Cursor.CutTo`, `Outcome.Cut`: cursors and outcomes on a text and on its front.
* `Agrees`, `Yields.cut`: outcomes on a text that is cut off.
-/

namespace MessageIdl.Peg

open MessageIdl.Source

variable {α β : Type}

/-! ### Parts of expressions -/

namespace Expr

mutual

/-- The terminals and the lookaheads of an expression, at any depth, those of rules left aside. -/
def terminals : Expr α → List (Expr α)
  | .literal text => [.literal text]
  | .pattern p => [.pattern p]
  | .seq items => terminalsOfParts items
  | .choice alternatives => terminalsOfParts alternatives
  | .repeated _ body => terminals body
  | .optional body => terminals body
  | .not body => .not body :: terminals body
  | .ref _ => []
  | .action _ body => terminals body
  | .endOfInput => [.endOfInput]
  | .hole => [.hole]

/-- The terminals of the parts of a compound expression. -/
def terminalsOfParts : List (Expr α) → List (Expr α)
  | [] => []
  | e :: rest => terminals e ++ terminalsOfParts rest

end

/-- The terminals and the lookaheads of an expression have `P`. -/
def BuiltFrom (P : Expr α → Prop) (e : Expr α) : Prop := ∀ x ∈ e.terminals, P x

variable {P : Expr α → Prop} {e : Expr α} {es : List (Expr α)}

theorem BuiltFrom.seq_cons (h : (Expr.seq (e :: es)).BuiltFrom P) :
    e.BuiltFrom P ∧ (Expr.seq es).BuiltFrom P :=
  ⟨fun x hx => h x (List.mem_append_left _ hx), fun x hx => h x (List.mem_append_right _ hx)⟩

theorem BuiltFrom.choice_cons (h : (Expr.choice (e :: es)).BuiltFrom P) :
    e.BuiltFrom P ∧ (Expr.choice es).BuiltFrom P :=
  ⟨fun x hx => h x (List.mem_append_left _ hx), fun x hx => h x (List.mem_append_right _ hx)⟩

theorem BuiltFrom.repeated {least : Int} (h : (Expr.repeated least e).BuiltFrom P) : e.BuiltFrom P := h

theorem BuiltFrom.not (h : (Expr.not e).BuiltFrom P) : P (.not e) ∧ e.BuiltFrom P :=
  ⟨h _ List.mem_cons_self, fun x hx => h x (List.mem_cons_of_mem _ hx)⟩

theorem BuiltFrom.ref (name : String) : (Expr.ref name).BuiltFrom P := nofun

end Expr

/-- Each rule is taken as a whole, if `P` holds of a reference to it and it refers to no other rule, or
comes down to expressions with `P`. -/
def RulesFrom (find : String → Option (Expr α)) (P : Expr α → Prop) : Prop :=
  ∀ name body, find name = some body → P (.ref name) ∧ body.refs = [] ∨ body.BuiltFrom P

variable {find : String → Option (Expr α)} {P : Expr α → Prop} {R : List Char → List Char → Prop}
  {lines lines' : LineIndex} {e e' : Expr α} {c c' stop stop' : Cursor} {o o' : Outcome α}
  {pos : Nat} {label : String}

/-! ### What is left of a text -/

/-- The text in front of a match of `e` and the text behind it are related. -/
def Keeps (find : String → Option (Expr α)) (R : List Char → List Char → Prop) (e : Expr α) : Prop :=
  ∀ lines c stop v, Yields find lines e c (.matched stop v) → R c.rest stop.rest

section Kept

variable (hrules : RulesFrom find P) (hP : ∀ x, P x → Keeps find R x) (hrefl : ∀ t, R t t)
  (htrans : ∀ {s t u}, R s t → R t u → R s u)
include hrules hP hrefl htrans

/-- **A relation that terminals keep is kept by what is built from them**, by induction on the match. -/
theorem Yields.kept {v : Value α} (h : Yields find lines e c (.matched stop v))
    (he : e.BuiltFrom P) : R c.rest stop.rest := by
  generalize ho : Outcome.matched stop v = o at h
  induction h generalizing stop v with
  | literal hp =>
    cases ho
    exact hP _ (he _ List.mem_cons_self) lines _ _ _ (.literal hp)
  | pattern hs =>
    cases ho
    exact hP _ (he _ List.mem_cons_self) lines _ _ _ (.pattern hs)
  | ref hf hy ih =>
    cases ho
    rcases hrules _ _ hf with ⟨hwhole, -⟩ | hbody
    · exact hP _ hwhole lines _ _ _ (.ref hf hy)
    · exact ih hbody rfl
  | seq_nil =>
    cases ho
    exact hrefl _
  | seq_cons _ _ ih ih' =>
    cases ho
    exact htrans (ih he.seq_cons.1 rfl) (ih' he.seq_cons.2 rfl)
  | seq_stop _ hu => exact absurd ho.symm (hu _ _)
  | seq_later_stop _ _ hu => exact absurd ho.symm (hu _ _)
  | choice_commit _ _ ih => exact ih he.choice_cons.1 ho
  | choice_next _ _ _ ih => exact ih he.choice_cons.2 ho
  | round_last _ =>
    cases ho
    exact hrefl _
  | round_empty _ _ ih =>
    cases ho
    exact ih he rfl
  | round_more _ _ _ ih ih' =>
    cases ho
    exact htrans (ih he rfl) (ih' he rfl)
  | repeated_enough _ _ _ ih =>
    cases ho
    exact ih he rfl
  | optional_present _ _ ih => exact ih he ho
  | optional_absent _ =>
    cases ho
    exact hrefl _
  | not_failed _ =>
    cases ho
    exact hrefl _
  | action _ _ ih =>
    cases ho
    exact ih he rfl
  | action_stop _ hu => exact absurd ho.symm (hu _ _)
  | endOfInput _ =>
    cases ho
    exact hrefl _
  | _ => cases ho

omit hrules hP hrefl htrans in
/-- What refers to no rule tries nothing that does. -/
theorem Tries.refs_eq_nil (h : Tries find lines e c e' c') (he : e.refs = []) : e'.refs = [] := by
  induction h with
  | self => exact he
  | ref _ _ _ => cases he
  | seq_head _ ih => exact ih (List.append_eq_nil_iff.mp he).1
  | seq_tail _ _ ih => exact ih (List.append_eq_nil_iff.mp he).2
  | choice_head _ ih => exact ih (List.append_eq_nil_iff.mp he).1
  | choice_next _ _ ih => exact ih (List.append_eq_nil_iff.mp he).2
  | round _ ih => exact ih he
  | round_more _ _ _ ih => exact ih he
  | optional _ ih => exact ih he
  | not _ ih => exact ih he
  | action _ ih => exact ih he

/-- So is the text where something is tried that refers to rules: it is not tried inside a rule that is
taken as a whole. -/
theorem Tries.kept (h : Tries find lines e c e' c') (he : e.BuiltFrom P) (he' : e'.refs ≠ []) :
    R c.rest c'.rest := by
  have hkept {x : Expr α} {c stop : Cursor} {v : Value α} (hx : x.BuiltFrom P)
      (hy : Yields find lines x c (.matched stop v)) : R c.rest stop.rest :=
    hy.kept hrules hP hrefl htrans hx
  induction h with
  | self => exact hrefl _
  | ref hf ht ih =>
    rcases hrules _ _ hf with ⟨-, hrefs⟩ | hbody
    · exact absurd (ht.refs_eq_nil hrefs) he'
    · exact ih hbody he'
  | seq_head _ ih => exact ih he.seq_cons.1 he'
  | seq_tail hy _ ih => exact htrans (hkept he.seq_cons.1 hy) (ih he.seq_cons.2 he')
  | choice_head _ ih => exact ih he.choice_cons.1 he'
  | choice_next _ _ ih => exact ih he.choice_cons.2 he'
  | round _ ih => exact ih he he'
  | round_more hy _ _ ih => exact htrans (hkept he.repeated hy) (ih he he')
  | optional _ ih => exact ih he he'
  | not _ ih => exact ih he.not.2 he'
  | action _ ih => exact ih he he'

/-- **A failure is one of a part**: of a terminal, a lookahead, or a rule that is taken as a whole. -/
theorem Misses.exists_part (h : Misses find lines e c pos label) (he : e.BuiltFrom P) :
    ∃ x c', P x ∧ c.Reaches c' ∧ R c.rest c'.rest ∧ Misses find lines x c' pos label := by
  have hkept {x : Expr α} {c stop : Cursor} {v : Value α} (hx : x.BuiltFrom P)
      (hy : Yields find lines x c (.matched stop v)) : R c.rest stop.rest :=
    hy.kept hrules hP hrefl htrans hx
  have hself {x : Expr α} {c : Cursor} {pos : Nat} {label : String} (hx : P x)
      (hm : Misses find lines x c pos label) :
      ∃ x c', P x ∧ c.Reaches c' ∧ R c.rest c'.rest ∧ Misses find lines x c' pos label :=
    ⟨x, c, hx, .refl c, hrefl _, hm⟩
  induction h with
  | literal hp => exact hself (he _ List.mem_cons_self) (.literal hp)
  | pattern hs => exact hself (he _ List.mem_cons_self) (.pattern hs)
  | endOfInput hne => exact hself (he _ List.mem_cons_self) (.endOfInput hne)
  | ref hf hm ih =>
    rcases hrules _ _ hf with ⟨hwhole, -⟩ | hbody
    · exact hself hwhole (.ref hf hm)
    · exact ih hbody
  | seq_head _ ih => exact ih he.seq_cons.1
  | seq_tail hy _ ih =>
    obtain ⟨x, c', hx, hr, hR, hm⟩ := ih he.seq_cons.2
    exact ⟨x, c', hx, hy.reaches.trans hr, htrans (hkept he.seq_cons.1 hy) hR, hm⟩
  | choice_head _ ih => exact ih he.choice_cons.1
  | choice_next _ _ ih => exact ih he.choice_cons.2
  | round _ ih => exact ih he
  | round_more hy _ _ ih =>
    obtain ⟨x, c', hx, hr, hR, hm⟩ := ih he
    exact ⟨x, c', hx, hy.reaches.trans hr, htrans (hkept he.repeated hy) hR, hm⟩
  | optional _ ih => exact ih he
  | not hy => exact hself he.not.1 (.not hy)
  | action _ ih => exact ih he

end Kept

/-! ### Outcomes on the front of a text -/

/-- The text at `c'` is the front of the text at `c`, at the same offset. -/
structure Cursor.CutTo (c c' : Cursor) : Prop where
  offset : c'.offset = c.offset
  rest : c'.rest <+: c.rest

/-- Outcomes of one shape, the second one on the front of the text of the first one. -/
inductive Outcome.Cut (f : α → β) : Outcome α → Outcome α → Prop where
  | matched {stop stop' v v'} : stop.CutTo stop' → v.shape f = v'.shape f →
      Cut f (.matched stop v) (.matched stop' v')
  | failed : Cut f .failed .failed
  | raised (fault : Fault) : Cut f (.raised fault) (.raised fault)
  | exhausted : Cut f .exhausted .exhausted

theorem Cursor.CutTo.advance (h : c.CutTo c') (n : Nat) : (c.advance n).CutTo (c'.advance n) where
  offset := by rw [advance_offset, advance_offset, h.offset]
  rest := by
    obtain ⟨z, hz⟩ := h.rest
    rw [advance_rest, advance_rest, ← hz]
    exact ⟨_, List.drop_append.symm⟩

/-- A match takes something on both texts or on none. -/
theorem Cursor.CutTo.offset_eq_iff (h : c.CutTo c') (hstop : stop.CutTo stop') :
    stop.offset = c.offset ↔ stop'.offset = c'.offset := by
  rw [h.offset, hstop.offset]

variable {f : α → β}

theorem Outcome.Cut.ne_failed (h : o.Cut f o') (hne : o ≠ .failed) : o' ≠ .failed := by
  rintro rfl
  cases h
  exact hne rfl

theorem Outcome.Cut.unmatched (h : o.Cut f o') (hu : o.Unmatched) : o'.Unmatched := by
  rintro stop' v' rfl
  cases h
  exact hu _ _ rfl

/-- On the front of a text, if that is in `I`, an expression fails with `label` at its end or has the
outcome that it has on the whole text. -/
def Agrees (find : String → Option (Expr α)) (f : α → β) (I : List Char → Prop) (label : String)
    (e : Expr α) : Prop :=
  ∀ lines lines' c c' o, Yields find lines e c o → c.CutTo c' → I c'.rest →
    Misses find lines' e c' (c'.offset + c'.rest.length) label ∨
      ∃ o', Yields find lines' e c' o' ∧ o.Cut f o'

section Agree

variable {I : List Char → Prop} (hrules : RulesFrom find P)
  (hkeeps : ∀ x, P x → Keeps find (fun s t => I s → I t) x)
  (hsteady : ∀ name body, find name = some body → body.SteadyActions find f)
  (hP : ∀ x, P x → Agrees find f I label x)
include hrules hkeeps hsteady hP

/-- **Outcomes on a text that is cut off**, by induction on the derivation for the whole text. -/
theorem Yields.cut (h : Yields find lines e c o) (lines' : LineIndex) (he : e.BuiltFrom P)
    (hact : e.SteadyActions find f) (hc : c.CutTo c') (hI : I c'.rest) :
    Misses find lines' e c' (c'.offset + c'.rest.length) label ∨
      ∃ o', Yields find lines' e c' o' ∧ o.Cut f o' := by
  have hkept {x : Expr α} (hx : x.BuiltFrom P) {c stop : Cursor} {v : Value α}
      (hy : Yields find lines' x c (.matched stop v)) (hc : I c.rest) : I stop.rest :=
    hy.kept hrules hkeeps (fun _ => id) (fun h h' => h' ∘ h) hx hc
  -- a failure at the end of what is left behind a match is one at the end of the text
  have hend {x : Expr α} {c mid : Cursor} {v : Value α} {y : Expr α}
      (hy : Yields find lines' x c (.matched mid v))
      (hm : Misses find lines' y mid (mid.offset + mid.rest.length) label) :
      Misses find lines' y mid (c.offset + c.rest.length) label :=
    hy.reaches.offset_add_length ▸ hm
  induction h generalizing c' with
  | literal hp => exact hP _ (he _ List.mem_cons_self) lines lines' _ _ _ (.literal hp) hc hI
  | literal_failed hp => exact hP _ (he _ List.mem_cons_self) lines lines' _ _ _ (.literal_failed hp) hc hI
  | pattern hs => exact hP _ (he _ List.mem_cons_self) lines lines' _ _ _ (.pattern hs) hc hI
  | pattern_failed hs => exact hP _ (he _ List.mem_cons_self) lines lines' _ _ _ (.pattern_failed hs) hc hI
  | ref hf hy ih =>
    rcases hrules _ _ hf with ⟨hwhole, -⟩ | hbody
    · exact hP _ hwhole lines lines' _ _ _ (.ref hf hy) hc hI
    · rcases ih hbody (hsteady _ _ hf) hc hI with hm | ⟨o', hy', ho⟩
      · exact .inl (.ref hf hm)
      · exact .inr ⟨o', .ref hf hy', ho⟩
  | ref_undefined hf => exact .inr ⟨_, .ref_undefined hf, .raised _⟩
  | seq_nil => exact .inr ⟨_, .seq_nil, .matched hc rfl⟩
  | seq_cons _ _ ih ih' =>
    rcases ih he.seq_cons.1 hact.seq_cons.1 hc hI with hm | ⟨_, hy, ⟨hmid, hv⟩⟩
    · exact .inl (.seq_head hm)
    · rcases ih' he.seq_cons.2 hact.seq_cons.2 hmid (hkept he.seq_cons.1 hy hI) with
        hm | ⟨_, hys, ⟨hstop, hvs⟩⟩
      · exact .inl (.seq_tail hy (hend hy hm))
      · obtain ⟨vs', rfl⟩ := hys.seq_value
        exact .inr ⟨_, .seq_cons hy hys, .matched hstop (Value.shape_list_cons hv hvs)⟩
  | seq_stop _ hu ih =>
    rcases ih he.seq_cons.1 hact.seq_cons.1 hc hI with hm | ⟨o', hy, ho⟩
    · exact .inl (.seq_head hm)
    · exact .inr ⟨o', .seq_stop hy (ho.unmatched hu), ho⟩
  | seq_later_stop _ _ hu ih ih' =>
    rcases ih he.seq_cons.1 hact.seq_cons.1 hc hI with hm | ⟨_, hy, ⟨hmid, -⟩⟩
    · exact .inl (.seq_head hm)
    · rcases ih' he.seq_cons.2 hact.seq_cons.2 hmid (hkept he.seq_cons.1 hy hI) with
        hm | ⟨o', hys, ho⟩
      · exact .inl (.seq_tail hy (hend hy hm))
      · exact .inr ⟨o', .seq_later_stop hy hys (ho.unmatched hu), ho⟩
  | choice_nil => exact .inr ⟨_, .choice_nil, .failed⟩
  | choice_commit _ hne ih =>
    rcases ih he.choice_cons.1 hact.choice_cons.1 hc hI with hm | ⟨o', hy, ho⟩
    · exact .inl (.choice_head hm)
    · exact .inr ⟨o', .choice_commit hy (ho.ne_failed hne), ho⟩
  | choice_next _ _ ih ih' =>
    rcases ih he.choice_cons.1 hact.choice_cons.1 hc hI with hm | ⟨_, hy, ⟨⟩⟩
    · exact .inl (.choice_head hm)
    · rcases ih' he.choice_cons.2 hact.choice_cons.2 hc hI with hm | ⟨o', hys, ho⟩
      · exact .inl (.choice_next hy hm)
      · exact .inr ⟨o', .choice_next hy hys, ho⟩
  | round_last _ ih =>
    rcases ih he hact hc hI with hm | ⟨_, hy, ⟨⟩⟩
    · exact .inl (.round hm)
    · exact .inr ⟨_, .round_last hy, .matched hc rfl⟩
  | round_empty _ hempty ih =>
    rcases ih he hact hc hI with hm | ⟨_, hy, ⟨hstop, hv⟩⟩
    · exact .inl (.round hm)
    · exact .inr ⟨_, .round_empty hy ((hc.offset_eq_iff hstop).mp hempty),
        .matched hstop (Value.shape_list_cons hv rfl)⟩
  | round_more _ hne _ ih ih' =>
    rcases ih he hact hc hI with hm | ⟨_, hy, ⟨hmid, hv⟩⟩
    · exact .inl (.round hm)
    · have hne' := mt (hc.offset_eq_iff hmid).mpr hne
      rcases ih' he hact hmid (hkept he.repeated hy hI) with hm | ⟨_, hys, ⟨hstop, hvs⟩⟩
      · exact .inl (.round_more hy hne' (hend hy hm))
      · obtain ⟨vs', rfl⟩ := hys.repeated_value
        exact .inr ⟨_, .round_more hy hne' hys, .matched hstop (Value.shape_list_cons hv hvs)⟩
  | round_raised _ ih =>
    rcases ih he hact hc hI with hm | ⟨_, hy, ⟨⟩⟩
    · exact .inl (.round hm)
    · exact .inr ⟨_, .round_raised hy, .raised _⟩
  | round_later_raised _ hne _ ih ih' =>
    rcases ih he hact hc hI with hm | ⟨_, hy, ⟨hmid, -⟩⟩
    · exact .inl (.round hm)
    · have hne' := mt (hc.offset_eq_iff hmid).mpr hne
      rcases ih' he hact hmid (hkept he.repeated hy hI) with hm | ⟨_, hys, ⟨⟩⟩
      · exact .inl (.round_more hy hne' (hend hy hm))
      · exact .inr ⟨_, .round_later_raised hy hne' hys, .raised _⟩
  | repeated_enough h0 _ hle ih =>
    rcases ih he hact hc hI with hm | ⟨_, hy, ⟨hstop, hvs⟩⟩
    · exact .inl hm.of_least
    · obtain ⟨vs', rfl⟩ := hy.repeated_value
      exact .inr ⟨_, .repeated_enough h0 hy (Value.length_eq_of_shape hvs ▸ hle), .matched hstop hvs⟩
  | repeated_short h0 _ hlt ih =>
    rcases ih he hact hc hI with hm | ⟨_, hy, ⟨hstop, hvs⟩⟩
    · exact .inl hm.of_least
    · obtain ⟨vs', rfl⟩ := hy.repeated_value
      exact .inr ⟨_, .repeated_short h0 hy (Value.length_eq_of_shape hvs ▸ hlt), .failed⟩
  | repeated_raised h0 _ ih =>
    rcases ih he hact hc hI with hm | ⟨_, hy, ⟨⟩⟩
    · exact .inl hm.of_least
    · exact .inr ⟨_, .repeated_raised h0 hy, .raised _⟩
  | optional_present _ hne ih =>
    rcases ih he hact hc hI with hm | ⟨o', hy, ho⟩
    · exact .inl (.optional hm)
    · exact .inr ⟨o', .optional_present hy (ho.ne_failed hne), ho⟩
  | optional_absent _ ih =>
    rcases ih he hact hc hI with hm | ⟨_, hy, ⟨⟩⟩
    · exact .inl (.optional hm)
    · exact .inr ⟨_, .optional_absent hy, .matched hc rfl⟩
  | not_failed hy => exact hP _ he.not.1 lines lines' _ _ _ (.not_failed hy) hc hI
  | not_matched hy => exact hP _ he.not.1 lines lines' _ _ _ (.not_matched hy) hc hI
  | not_raised hy => exact hP _ he.not.1 lines lines' _ _ _ (.not_raised hy) hc hI
  | action hy hb ih =>
    rcases ih he hact.action.2 hc hI with hm | ⟨_, hy', ⟨hstop, hv⟩⟩
    · exact .inl (.action hm)
    · obtain ⟨built', hb', hbuilt⟩ := hact.action.1.exists_built hy hy' hv hb
      exact .inr ⟨_, .action hy' hb', .matched hstop hbuilt⟩
  | action_raised hy hb ih =>
    rcases ih he hact.action.2 hc hI with hm | ⟨_, hy', ⟨hstop, hv⟩⟩
    · exact .inl (.action hm)
    · exact .inr ⟨_, .action_raised hy' (hact.action.1.raised hy hy' hv hb), .raised _⟩
  | action_stop _ hu ih =>
    rcases ih he hact.action.2 hc hI with hm | ⟨o', hy, ho⟩
    · exact .inl (.action hm)
    · exact .inr ⟨o', .action_stop hy (ho.unmatched hu), ho⟩
  | endOfInput hend => exact hP _ (he _ List.mem_cons_self) lines lines' _ _ _ (.endOfInput hend) hc hI
  | endOfInput_failed hne =>
    exact hP _ (he _ List.mem_cons_self) lines lines' _ _ _ (.endOfInput_failed hne) hc hI
  | hole => exact .inr ⟨_, .hole, .raised _⟩

end Agree

end MessageIdl.Peg
