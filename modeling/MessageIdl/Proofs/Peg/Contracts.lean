import MessageIdl.Proofs.Peg.Refinement

/-!
# Contracts of parsing expressions

Three statements about an expression that compose along its structure.

* `Ensures`: no fault is raised, and every match is as described by a relation between the cursors
  where it begins and ends and its value.
* `Takes`: in front of a text there is a match, which leaves a given rest.
* `Refuses`: in front of a text there is no match.

`Ensures` speaks about all matches, `Takes` and `Refuses` say which one there is.
-/

namespace MessageIdl.Peg

open MessageIdl.Source

variable {α : Type}

/-- No fault is raised by `e`, and every match from `c` to `stop` with the value `v` has
`R c stop v`. -/
def Ensures (find : String → Option (Expr α)) (lines : LineIndex) (e : Expr α)
    (R : Cursor → Cursor → Value α → Prop) : Prop :=
  ∀ c o, Yields find lines e c o → o = .failed ∨ ∃ stop v, o = .matched stop v ∧ R c stop v

/-- Wherever `text` is left, `e` matches until `rest` is left, with a value in `P`. -/
def Takes (find : String → Option (Expr α)) (lines : LineIndex) (e : Expr α)
    (text rest : List Char) (P : Value α → Prop) : Prop :=
  ∀ c : Cursor, c.rest = text →
    ∃ stop v, Yields find lines e c (.matched stop v) ∧ stop.rest = rest ∧ P v

/-- Wherever `text` is left, `e` fails. -/
def Refuses (find : String → Option (Expr α)) (lines : LineIndex) (e : Expr α)
    (text : List Char) : Prop :=
  ∀ c : Cursor, c.rest = text → Yields find lines e c .failed

/-- `Ensures` for expressions in a row, the relation being one on the list of their values. -/
def EnsuresRow (find : String → Option (Expr α)) (lines : LineIndex) (es : List (Expr α))
    (T : Cursor → Cursor → List (Value α) → Prop) : Prop :=
  Ensures find lines (.seq es) (fun c stop v => ∃ xs, v = .list xs ∧ T c stop xs)

/-- `Takes` for expressions in a row. -/
def TakesRow (find : String → Option (Expr α)) (lines : LineIndex) (es : List (Expr α))
    (text rest : List Char) (T : List (Value α) → Prop) : Prop :=
  Takes find lines (.seq es) text rest (fun v => ∃ xs, v = .list xs ∧ T xs)

variable {find : String → Option (Expr α)} {lines : LineIndex} {e : Expr α} {es : List (Expr α)}

/-! ### What all matches are like -/

namespace Ensures

variable {R S : Cursor → Cursor → Value α → Prop}

/-- A match has what is ensured. -/
theorem matched (h : Ensures find lines e R) {c stop : Cursor} {v : Value α}
    (hy : Yields find lines e c (.matched stop v)) : R c stop v := by
  rcases h c _ hy with ho | ⟨stop', v', ho, hR⟩
  · cases ho
  · cases ho
    exact hR

theorem not_raised (h : Ensures find lines e R) {c : Cursor} {fault : Fault} :
    ¬ Yields find lines e c (.raised fault) := by
  intro hy
  rcases h c _ hy with ho | ⟨stop, v, ho, -⟩ <;> cases ho

/-- What is ensured may be weakened, with the match itself at hand. -/
theorem imp (h : Ensures find lines e R)
    (himp : ∀ c stop v, Yields find lines e c (.matched stop v) → R c stop v → S c stop v) :
    Ensures find lines e S := by
  intro c o hy
  rcases h c o hy with ho | ⟨stop, v, rfl, hR⟩
  · exact .inl ho
  · exact .inr ⟨stop, v, rfl, himp c stop v hy hR⟩

/-- A match ends behind where it begins. -/
theorem reached (h : Ensures find lines e R) :
    Ensures find lines e (fun c stop v => R c stop v ∧ c.Reaches stop) :=
  h.imp fun _ _ _ hy hR => ⟨hR, hy.reaches⟩

theorem literal (text : String) : Ensures find lines (.literal text)
    (fun c stop v => c.rest = text.toList ++ stop.rest ∧ v = .text text) := by
  intro c o hy
  cases hy with
  | literal hp =>
    obtain ⟨rest, hrest⟩ := hp
    have hdrop : (c.advance text.length).rest = rest := by
      rw [Cursor.advance_rest, ← hrest, ← String.length_toList, List.drop_left]
    exact .inr ⟨_, _, rfl, by rw [hdrop, hrest], rfl⟩
  | literal_failed => exact .inl rfl

theorem pattern (p : Pattern) : Ensures find lines (.pattern p)
    (fun c stop v => ∃ n, p.scan c.rest = some n ∧ stop = c.advance n ∧
      v = .text (String.ofList (c.rest.take n))) := by
  intro c o hy
  cases hy with
  | pattern hs => exact .inr ⟨_, _, rfl, _, hs, rfl, rfl⟩
  | pattern_failed => exact .inl rfl

theorem ref {name : String} {body : Expr α} (hf : find name = some body)
    (h : Ensures find lines body R) : Ensures find lines (.ref name) R := by
  intro c o hy
  cases hy with
  | ref hf' hy =>
    rw [hf] at hf'
    cases hf'
    exact h c o hy
  | ref_undefined hf' =>
    rw [hf] at hf'
    cases hf'

/-- The first item is matched up to some place, and the others from there. -/
theorem row_cons {T : Cursor → Cursor → List (Value α) → Prop} (h : Ensures find lines e R)
    (hs : EnsuresRow find lines es T) :
    EnsuresRow find lines (e :: es) (fun c stop xs =>
      ∃ mid x xs', R c mid x ∧ T mid stop xs' ∧ xs = x :: xs') := by
  intro c o hy
  cases hy with
  | seq_cons hx hxs =>
    obtain ⟨xs, hv, hT⟩ := hs.matched hxs
    cases hv
    exact .inr ⟨_, _, rfl, _, rfl, _, _, _, h.matched hx, hT, rfl⟩
  | seq_stop hx hu =>
    rcases h c o hx with ho | ⟨stop, v, rfl, -⟩
    · exact .inl ho
    · exact absurd rfl (hu stop v)
  | seq_later_stop _ hxs hu =>
    rcases hs _ o hxs with ho | ⟨stop, v, rfl, -⟩
    · exact .inl ho
    · exact absurd rfl (hu stop v)

theorem choice_nil : Ensures find lines (.choice []) R := by
  intro c o hy
  cases hy
  exact .inl rfl

/-- The later alternatives are only tried where the first one fails. -/
theorem choice_cons_of_failed (h : Ensures find lines e R)
    (hs : Ensures find lines (.choice es)
      (fun c stop v => Yields find lines e c .failed → R c stop v)) :
    Ensures find lines (.choice (e :: es)) R := by
  intro c o hy
  cases hy with
  | choice_commit hx _ => exact h c o hx
  | choice_next hx hxs =>
    rcases hs c o hxs with ho | ⟨stop, v, rfl, hR⟩
    · exact .inl ho
    · exact .inr ⟨stop, v, rfl, hR hx⟩

theorem choice_cons (h : Ensures find lines e R) (hs : Ensures find lines (.choice es) R) :
    Ensures find lines (.choice (e :: es)) R :=
  h.choice_cons_of_failed (hs.imp fun _ _ _ _ hR _ => hR)

/-- **Rounds.**  What holds of no round, and is kept by one more round in front, holds of all. -/
theorem many (h : Ensures find lines e R) (hnil : ∀ c, S c c (.list []))
    (hcons : ∀ c mid stop v vs, R c mid v → S mid stop (.list vs) → S c stop (.list (v :: vs))) :
    Ensures find lines (.repeated 0 e) S := by
  intro c o hy
  generalize hr : Expr.repeated 0 e = r at hy
  induction hy with
  | round_last _ => exact .inr ⟨_, _, rfl, hnil _⟩
  | round_empty hx _ =>
    cases hr
    exact .inr ⟨_, _, rfl, hcons _ _ _ _ _ (h.matched hx) (hnil _)⟩
  | round_more hx _ _ _ ih =>
    cases hr
    rcases ih rfl with ho | ⟨stop, v, ho, hS⟩
    · cases ho
    · cases ho
      exact .inr ⟨_, _, rfl, hcons _ _ _ _ _ (h.matched hx) hS⟩
  | round_raised hx =>
    cases hr
    exact absurd hx h.not_raised
  | round_later_raised _ _ _ _ ih =>
    rcases ih hr with ho | ⟨stop, v, ho, -⟩ <;> cases ho
  | repeated_enough h0 | repeated_short h0 | repeated_raised h0 =>
    cases hr
    exact absurd rfl h0
  | _ => cases hr

/-- A repetition that has to match once gives at least one value. -/
theorem many1 (h : Ensures find lines (.repeated 0 e) S) :
    Ensures find lines (.repeated 1 e) (fun c stop v => S c stop v ∧ v ≠ .list []) := by
  intro c o hy
  cases hy with
  | repeated_enough _ hx hle =>
    refine .inr ⟨_, _, rfl, h.matched hx, fun hv => ?_⟩
    cases hv
    exact absurd hle (by simp)
  | repeated_short => exact .inl rfl
  | repeated_raised _ hx => exact absurd hx h.not_raised

theorem optional (h : Ensures find lines e R) : Ensures find lines (.optional e)
    (fun c stop v =>
      R c stop v ∨ Yields find lines e c .failed ∧ stop = c ∧ v = .absent) := by
  intro c o hy
  cases hy with
  | optional_present hx _ =>
    rcases h c o hx with ho | ⟨stop, v, rfl, hR⟩
    · exact .inl ho
    · exact .inr ⟨stop, v, rfl, .inl hR⟩
  | optional_absent hx => exact .inr ⟨_, _, rfl, .inr ⟨hx, rfl, rfl⟩⟩

/-- An action that accepts every value ensured of its body raises nothing. -/
theorem action {act : Action α} (h : Ensures find lines e R)
    (hbuild : ∀ c stop v, R c stop v →
      ∃ built, act.build v.spread (lines.span c.offset stop.offset) = .ok built ∧
        S c stop built) : Ensures find lines (.action act e) S := by
  intro c o hy
  cases hy with
  | action hx hb =>
    obtain ⟨built, hok, hS⟩ := hbuild _ _ _ (h.matched hx)
    rw [hok] at hb
    cases hb
    exact .inr ⟨_, _, rfl, hS⟩
  | action_raised hx hb =>
    obtain ⟨built, hok, -⟩ := hbuild _ _ _ (h.matched hx)
    rw [hok] at hb
    cases hb
  | action_stop hx hu =>
    rcases h c o hx with ho | ⟨stop, v, rfl, -⟩
    · exact .inl ho
    · exact absurd rfl (hu stop v)

theorem endOfInput : Ensures find lines .endOfInput
    (fun c stop v => c.rest = [] ∧ stop = c ∧ v = .absent) := by
  intro c o hy
  cases hy with
  | endOfInput he => exact .inr ⟨_, _, rfl, he, rfl, rfl⟩
  | endOfInput_failed => exact .inl rfl

end Ensures

theorem EnsuresRow.nil : EnsuresRow find lines [] (fun c stop xs => stop = c ∧ xs = []) := by
  intro c o hy
  cases hy
  exact .inr ⟨_, _, rfl, [], rfl, rfl, rfl⟩

/-- The action of a row is given the list of its values. -/
theorem EnsuresRow.action {act : Action α} {T : Cursor → Cursor → List (Value α) → Prop}
    {S : Cursor → Cursor → Value α → Prop}
    (h : EnsuresRow find lines es T)
    (hbuild : ∀ c stop xs, T c stop xs →
      ∃ built, act.build xs (lines.span c.offset stop.offset) = .ok built ∧ S c stop built) :
    Ensures find lines (.action act (.seq es)) S := by
  refine Ensures.action h fun c stop v hv => ?_
  obtain ⟨xs, rfl, hT⟩ := hv
  exact hbuild c stop xs hT

/-! ### Which match there is -/

namespace Takes

variable {P Q : Value α → Prop} {text mid rest : List Char}

theorem imp (h : Takes find lines e text rest P) (himp : ∀ v, P v → Q v) :
    Takes find lines e text rest Q := by
  intro c hc
  obtain ⟨stop, v, hy, hs, hP⟩ := h c hc
  exact ⟨stop, v, hy, hs, himp v hP⟩

/-- Where there is a match there is no failure. -/
theorem not_failed (h : Takes find lines e text rest P) {c : Cursor} (hc : c.rest = text) :
    ¬ Yields find lines e c .failed := by
  intro hf
  obtain ⟨stop, v, hy, -, -⟩ := h c hc
  cases hy.deterministic hf

theorem literal (w : String) (rest : List Char) :
    Takes find lines (.literal w) (w.toList ++ rest) rest (· = .text w) := by
  intro c hc
  refine ⟨_, _, .literal ⟨rest, hc.symm⟩, ?_, rfl⟩
  rw [Cursor.advance_rest, hc, ← String.length_toList, List.drop_left]

theorem pattern {p : Pattern} {taken : List Char} (hs : p.scan (taken ++ rest) = some taken.length) :
    Takes find lines (.pattern p) (taken ++ rest) rest (· = .text (String.ofList taken)) := by
  intro c hc
  rw [← hc] at hs
  refine ⟨_, _, .pattern hs, ?_, ?_⟩
  · rw [Cursor.advance_rest, hc, List.drop_left]
  · rw [hc, List.take_left]

theorem ref {name : String} {body : Expr α} (hf : find name = some body)
    (h : Takes find lines body text rest P) : Takes find lines (.ref name) text rest P := by
  intro c hc
  obtain ⟨stop, v, hy, hs, hP⟩ := h c hc
  exact ⟨stop, v, .ref hf hy, hs, hP⟩

theorem row_cons {T : List (Value α) → Prop} (h : Takes find lines e text mid P)
    (hs : TakesRow find lines es mid rest T) :
    TakesRow find lines (e :: es) text rest (fun xs => ∃ x xs', P x ∧ T xs' ∧ xs = x :: xs') := by
  intro c hc
  obtain ⟨m, x, hx, hm, hP⟩ := h c hc
  obtain ⟨stop, v, hv, hstop, xs, rfl, hT⟩ := hs m hm
  exact ⟨stop, _, .seq_cons hx hv, hstop, _, rfl, x, xs, hP, hT, rfl⟩

theorem choice_head (h : Takes find lines e text rest P) :
    Takes find lines (.choice (e :: es)) text rest P := by
  intro c hc
  obtain ⟨stop, v, hy, hs, hP⟩ := h c hc
  exact ⟨stop, v, .choice_commit hy (by simp), hs, hP⟩

theorem choice_tail (hr : Refuses find lines e text)
    (h : Takes find lines (.choice es) text rest P) :
    Takes find lines (.choice (e :: es)) text rest P := by
  intro c hc
  obtain ⟨stop, v, hy, hs, hP⟩ := h c hc
  exact ⟨stop, v, .choice_next (hr c hc) hy, hs, hP⟩

theorem many_nil (hr : Refuses find lines e rest) :
    Takes find lines (.repeated 0 e) rest rest (· = .list []) := by
  intro c hc
  exact ⟨c, _, .round_last (hr c hc), hc, rfl⟩

/-- A round that takes something is followed by the other rounds. -/
theorem many_cons (h : Takes find lines e text mid P) (hlt : mid.length < text.length)
    (hs : Takes find lines (.repeated 0 e) mid rest Q) :
    Takes find lines (.repeated 0 e) text rest
      (fun v => ∃ x xs, P x ∧ Q (.list xs) ∧ v = .list (x :: xs)) := by
  intro c hc
  obtain ⟨m, x, hx, hm, hP⟩ := h c hc
  obtain ⟨stop, v, hv, hstop, hQ⟩ := hs m hm
  obtain ⟨xs, rfl⟩ := hv.repeated_value
  have hne : m.offset ≠ c.offset := by
    intro heq
    have hsum := hx.reaches.offset_add_length
    rw [hm, hc] at hsum
    omega
  exact ⟨stop, _, .round_more hx hne hv, hstop, x, xs, hP, hQ, rfl⟩

theorem many1 (h : Takes find lines (.repeated 0 e) text rest P)
    (hne : ∀ v, P v → v ≠ .list []) : Takes find lines (.repeated 1 e) text rest P := by
  intro c hc
  obtain ⟨stop, v, hv, hstop, hP⟩ := h c hc
  obtain ⟨vs, rfl⟩ := hv.repeated_value
  have hpos : 0 < vs.length := List.length_pos_iff.mpr fun h0 => hne _ hP (by rw [h0])
  exact ⟨stop, _, .repeated_enough (by decide) hv (by omega), hstop, hP⟩

theorem optional_present (h : Takes find lines e text rest P) :
    Takes find lines (.optional e) text rest P := by
  intro c hc
  obtain ⟨stop, v, hy, hs, hP⟩ := h c hc
  exact ⟨stop, v, .optional_present hy (by simp), hs, hP⟩

theorem optional_absent (hr : Refuses find lines e rest) :
    Takes find lines (.optional e) rest rest (· = .absent) := by
  intro c hc
  exact ⟨c, _, .optional_absent (hr c hc), hc, rfl⟩

theorem action {act : Action α} (h : Takes find lines e text rest P)
    (hbuild : ∀ v span, P v → ∃ built, act.build v.spread span = .ok built ∧ Q built) :
    Takes find lines (.action act e) text rest Q := by
  intro c hc
  obtain ⟨stop, v, hy, hs, hP⟩ := h c hc
  obtain ⟨built, hok, hQ⟩ := hbuild v (lines.span c.offset stop.offset) hP
  exact ⟨stop, built, .action hy hok, hs, hQ⟩

theorem endOfInput : Takes find lines .endOfInput [] [] (· = .absent) := by
  intro c hc
  exact ⟨c, _, .endOfInput hc, hc, rfl⟩

end Takes

theorem TakesRow.nil {rest : List Char} : TakesRow find lines [] rest rest (· = []) := by
  intro c hc
  exact ⟨c, _, .seq_nil, hc, [], rfl, rfl⟩

/-- What one row leaves is taken by the next one. -/
theorem TakesRow.append {es' : List (Expr α)} {T T' : List (Value α) → Prop}
    {text mid rest : List Char} (h : TakesRow find lines es text mid T)
    (h' : TakesRow find lines es' mid rest T') :
    TakesRow find lines (es ++ es') text rest (fun xs => ∃ ys zs, T ys ∧ T' zs ∧ xs = ys ++ zs) := by
  intro c hc
  obtain ⟨m, _, hy, hm, ys, rfl, hT⟩ := h c hc
  obtain ⟨stop, _, hy', hstop, zs, rfl, hT'⟩ := h' m hm
  exact ⟨stop, _, hy.row_append hy', hstop, _, rfl, ys, zs, hT, hT', rfl⟩

theorem TakesRow.action {act : Action α} {T : List (Value α) → Prop} {Q : Value α → Prop}
    {text rest : List Char}
    (h : TakesRow find lines es text rest T)
    (hbuild : ∀ xs span, T xs → ∃ built, act.build xs span = .ok built ∧ Q built) :
    Takes find lines (.action act (.seq es)) text rest Q := by
  refine Takes.action h fun v span hv => ?_
  obtain ⟨xs, rfl, hT⟩ := hv
  exact hbuild xs span hT

/-! ### Where there is none -/

namespace Refuses

variable {P : Value α → Prop} {text mid : List Char}

theorem literal {w : String} (hw : ¬ w.toList <+: text) : Refuses find lines (.literal w) text := by
  intro c hc
  exact .literal_failed (hc ▸ hw)

theorem pattern {p : Pattern} (hs : p.scan text = none) :
    Refuses find lines (.pattern p) text := by
  intro c hc
  exact .pattern_failed (hc ▸ hs)

theorem ref {name : String} {body : Expr α} (hf : find name = some body)
    (h : Refuses find lines body text) : Refuses find lines (.ref name) text := by
  intro c hc
  exact .ref hf (h c hc)

theorem row_head (h : Refuses find lines e text) : Refuses find lines (.seq (e :: es)) text := by
  intro c hc
  exact .seq_stop (h c hc) Outcome.unmatched_failed

theorem row_tail (h : Takes find lines e text mid P) (hs : Refuses find lines (.seq es) mid) :
    Refuses find lines (.seq (e :: es)) text := by
  intro c hc
  obtain ⟨m, x, hx, hm, -⟩ := h c hc
  exact .seq_later_stop hx (hs m hm) Outcome.unmatched_failed

theorem choice (h : ∀ e ∈ es, Refuses find lines e text) :
    Refuses find lines (.choice es) text := by
  intro c hc
  induction es with
  | nil => exact .choice_nil
  | cons e es ih =>
    have hhead := h e List.mem_cons_self
    exact .choice_next (hhead c hc) (ih fun e' he' => h e' (List.mem_cons_of_mem _ he'))

theorem many1 (h : Refuses find lines e text) : Refuses find lines (.repeated 1 e) text := by
  intro c hc
  exact .repeated_short (by decide) (.round_last (h c hc)) (by simp)

theorem action {act : Action α} (h : Refuses find lines e text) :
    Refuses find lines (.action act e) text := by
  intro c hc
  exact .action_stop (h c hc) Outcome.unmatched_failed

end Refuses

end MessageIdl.Peg
