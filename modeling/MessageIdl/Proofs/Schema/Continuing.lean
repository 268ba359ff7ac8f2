import MessageIdl.Proofs.Peg.Misses
import MessageIdl.Proofs.Schema.Rules

/-!
# How a text goes on

A failure says what was expected at a place.  It leads on if the text up to there, followed by a token
of the expected kind, is the front of a text of the language.

* `Fills`: the words that a label stands for.
* `Passes`: what was read up to a place is a text of the language, or becomes one when the comment in
  which the input ends is ended.
* `Leads`: a failure that leads on.
* `Guides`: all matches of an expression pass a text of a language, and all failures on its way lead
  on; one lemma for each form of expressions.
-/

namespace MessageIdl.Schema

open MessageIdl.Peg MessageIdl.Source
open scoped Computability

/-! ### Labels -/

/-- The patterns of the grammar that can fail. -/
def labelledPatterns : List Pattern := [namePattern, numberPattern, blankPattern, lineCommentPattern]

/-- `Fills label w`: a terminal that is named `label` takes `w` from its first to its last character. -/
inductive Fills : String → List Char → Prop where
  | literal (text : String) : Fills (literalLabel text) text.toList
  | pattern {p : Pattern} {w : List Char} : p ∈ labelledPatterns → p.scan w = some w.length →
      Fills p.label w
  | endOfInput : Fills endLabel []

/-- A word that a label other than the end of the input stands for, and that keeps to one line. -/
def Token (label : String) (w : List Char) : Prop :=
  Fills label w ∧ label ≠ endLabel ∧ '\n' ∉ w

theorem literalLabel_ne_endLabel (text : String) : literalLabel text ≠ endLabel := by
  intro h
  have hhead : (literalLabel text).toList.head? = endLabel.toList.head? := by rw [h]
  rw [literalLabel, String.toList_append, String.toList_append] at hhead
  exact absurd hhead (by simp [endLabel])

theorem Token.literal {text : String} (h : '\n' ∉ text.toList) :
    Token (literalLabel text) text.toList :=
  ⟨.literal text, literalLabel_ne_endLabel text, h⟩

theorem Token.pattern {p : Pattern} {w : List Char} (hp : p ∈ labelledPatterns)
    (hscan : p.scan w = some w.length) (h : '\n' ∉ w) : Token p.label w := by
  have hlabels : ∀ p ∈ labelledPatterns, p.label ≠ endLabel := by decide
  exact ⟨.pattern hp hscan, hlabels p hp, h⟩

/-! ### What was passed -/

/-- `u` is a text of `L`.  Where nothing is left behind it, it may end in a comment whose line feed is
still to come: then it is a text of `L` with the rest of that line. -/
def Passed (L : Language Char) (u rest : List Char) : Prop :=
  u ∈ L ∨ rest = [] ∧ u ≠ [] ∧ ∀ w, '\n' ∉ w → u ++ (w ++ ['\n']) ∈ L

/-- What stands in front of `rest` was passed. -/
def Passes (L : Language Char) (text rest : List Char) : Prop :=
  ∃ u, text = u ++ rest ∧ Passed L u rest

namespace Passes

variable {L M : Language Char} {text mid rest : List Char}

theorem of_mem {u : List Char} (hu : u ∈ L) (htext : text = u ++ rest) : Passes L text rest :=
  ⟨u, htext, .inl hu⟩

theorem mono (h : Passes L text rest) (hle : L ≤ M) : Passes M text rest := by
  obtain ⟨u, htext, hu⟩ := h
  exact ⟨u, htext, hu.imp (fun hu => hle hu) fun hu => ⟨hu.1, hu.2.1, fun w hw => hle (hu.2.2 w hw)⟩⟩

/-- Nothing stands behind an open comment, so what is passed there is empty. -/
theorem mul (h : Passes L text mid) (h' : Passes M mid rest) : Passes (L * M) text rest := by
  obtain ⟨u, rfl, hu⟩ := h
  obtain ⟨v, rfl, hv⟩ := h'
  refine ⟨u ++ v, (List.append_assoc u v rest).symm, ?_⟩
  rcases hu with hu | ⟨hnil, hne, hu⟩
  · refine hv.imp (fun hv => Language.append_mem_mul hu hv) fun ⟨hnil, hne, hv⟩ => ?_
    refine ⟨hnil, List.append_ne_nil_of_right_ne_nil u hne, fun w hw => ?_⟩
    rw [List.append_assoc]
    exact Language.append_mem_mul hu (hv w hw)
  · obtain ⟨rfl, rfl⟩ := List.append_eq_nil_iff.mp hnil
    rcases hv with hv | ⟨-, hv, -⟩
    · refine .inr ⟨rfl, List.append_ne_nil_of_left_ne_nil hne [], fun w hw => ?_⟩
      rw [List.append_nil, ← List.append_nil (u ++ (w ++ ['\n']))]
      exact Language.append_mem_mul (hu w hw) hv
    · exact absurd rfl hv

end Passes

/-! ### Failures that lead on -/

/-- Behind what was passed from `c` up to `pos`, some token of the label and then some text make up a
text of `L`. -/
def Leads (L : Language Char) (c : Cursor) (pos : Nat) (label : String) : Prop :=
  ∃ u r w y, c.rest = u ++ r ∧ pos = c.offset + u.length ∧ Token label w ∧ u ++ (w ++ y) ∈ L

namespace Leads

variable {L M : Language Char} {c mid : Cursor} {pos : Nat} {label : String}

theorem here {w y : List Char} (hw : Token label w) (hmem : w ++ y ∈ L) :
    Leads L c c.offset label :=
  ⟨[], c.rest, w, y, rfl, rfl, hw, hmem⟩

theorem mono (h : Leads L c pos label) (hle : L ≤ M) : Leads M c pos label := by
  obtain ⟨u, r, w, y, hc, hpos, hw, hmem⟩ := h
  exact ⟨u, r, w, y, hc, hpos, hw, hle hmem⟩

/-- What comes next can be any text of its language. -/
theorem before (h : Leads L c pos label) {x : List Char} (hx : x ∈ M) :
    Leads (L * M) c pos label := by
  obtain ⟨u, r, w, y, hc, hpos, hw, hmem⟩ := h
  refine ⟨u, r, w, y ++ x, hc, hpos, hw, ?_⟩
  rw [← List.append_assoc w, ← List.append_assoc u]
  exact Language.append_mem_mul hmem hx

/-- Behind an open comment the token stands in the comment, and once more on the next line. -/
theorem behind (h : Leads M mid pos label) (hr : c.Reaches mid) (hp : Passes L c.rest mid.rest) :
    Leads (L * M) c pos label := by
  obtain ⟨v, r, w, y, hmid, hpos, hw, hmem⟩ := h
  obtain ⟨u, hc, hu⟩ := hp
  have hlen : c.rest.length = u.length + mid.rest.length := by rw [hc, List.length_append]
  have hsum := hr.offset_add_length
  have hpos : pos = c.offset + (u ++ v).length := by
    rw [List.length_append]
    omega
  rw [hmid, ← List.append_assoc] at hc
  rcases hu with hu | ⟨hnil, -, hu⟩
  · refine ⟨u ++ v, r, w, y, hc, hpos, hw, ?_⟩
    rw [List.append_assoc]
    exact Language.append_mem_mul hu hmem
  · -- the first token ends up in the open comment, so it is written a second time on the next line
    rw [hmid] at hnil
    obtain ⟨rfl, rfl⟩ := List.append_eq_nil_iff.mp hnil
    refine ⟨u ++ [], [], w, ['\n'] ++ (w ++ y), hc, hpos, hw, ?_⟩
    have hmem := Language.append_mem_mul (hu w hw.2.2) hmem
    simpa only [List.append_nil, List.nil_append, List.append_assoc] using hmem

end Leads

/-! ### Expressions that guide -/

variable {find : String → Option (Expr Node)} {lines : LineIndex}

/-- Failures on the way of `e` lead on to texts of `L`. -/
def Steers (find : String → Option (Expr Node)) (lines : LineIndex) (e : Expr Node)
    (L : Language Char) : Prop :=
  ∀ c pos label, Misses find lines e c pos label → Leads L c pos label

/-- Matches of `e` pass texts of `L`, of which there are some, and failures on its way lead on to such
texts. -/
structure Guides (find : String → Option (Expr Node)) (lines : LineIndex) (e : Expr Node)
    (L : Language Char) : Prop where
  inhabited : ∃ x, x ∈ L
  matched : ∀ c stop v, Yields find lines e c (.matched stop v) → Passes L c.rest stop.rest
  missed : Steers find lines e L

variable {e : Expr Node} {es : List (Expr Node)} {L M : Language Char}

namespace Steers

theorem mono (h : Steers find lines e L) (hle : L ≤ M) : Steers find lines e M :=
  fun c pos label hm => (h c pos label hm).mono hle

theorem literal {text : String} (hline : '\n' ∉ text.toList) {y : List Char}
    (hmem : text.toList ++ y ∈ L) : Steers find lines (.literal text) L := by
  intro c pos label hm
  cases hm
  exact .here (.literal hline) hmem

theorem pattern {p : Pattern} {w y : List Char} (hp : p ∈ labelledPatterns)
    (hscan : p.scan w = some w.length) (hline : '\n' ∉ w) (hmem : w ++ y ∈ L) :
    Steers find lines (.pattern p) L := by
  intro c pos label hm
  cases hm
  exact .here (.pattern hp hscan hline) hmem

theorem ref {name : String} {body : Expr Node} (hf : find name = some body)
    (h : Steers find lines body L) : Steers find lines (.ref name) L :=
  fun c pos label hm => h c pos label ((misses_ref hf).mp hm)

theorem action {act : Action Node} (h : Steers find lines e L) :
    Steers find lines (.action act e) L :=
  fun c pos label hm => h c pos label (misses_action.mp hm)

theorem choice (h : ∀ e ∈ es, Steers find lines e L) : Steers find lines (.choice es) L := by
  intro c pos label hm
  obtain ⟨e, he, hm⟩ := hm.exists_alternative
  exact h e he c pos label hm

/-- Failures in a row: at its head, or behind it. -/
theorem row_cons (h : Steers find lines e L) (hM : ∃ x, x ∈ M)
    (hmatched : ∀ c stop v, Yields find lines e c (.matched stop v) → Passes L c.rest stop.rest)
    (hs : Steers find lines (.seq es) M) : Steers find lines (.seq (e :: es)) (L * M) := by
  intro c pos label hm
  cases hm with
  | seq_head hm =>
    obtain ⟨x, hx⟩ := hM
    exact (h c pos label hm).before hx
  | seq_tail hy hm => exact (hs _ pos label hm).behind hy.reaches (hmatched _ _ _ hy)

theorem row_one (h : Steers find lines e L) : Steers find lines (.seq [e]) L := by
  intro c pos label hm
  cases hm with
  | seq_head hm => exact h c pos label hm
  | seq_tail _ hm => exact absurd hm not_misses_seq_nil

end Steers

namespace Guides

theorem mono (h : Guides find lines e L) (hle : L ≤ M) : Guides find lines e M where
  inhabited := h.inhabited.imp fun _ hx => hle hx
  matched c stop v hy := (h.matched c stop v hy).mono hle
  missed := h.missed.mono hle

theorem literal (text : String) (hline : '\n' ∉ text.toList) :
    Guides find lines (.literal text) (word text) where
  inhabited := ⟨_, mem_word.mpr rfl⟩
  matched c stop v hy := .of_mem (mem_word.mpr rfl) ((Ensures.literal text).matched hy).1
  missed := .literal hline (y := []) (by rw [List.append_nil]; exact mem_word.mpr rfl)

theorem ref {name : String} {body : Expr Node} (hf : find name = some body)
    (h : Guides find lines body L) : Guides find lines (.ref name) L where
  inhabited := h.inhabited
  matched c stop v hy := by
    cases hy with
    | ref hf' hy =>
      rw [hf] at hf'
      cases hf'
      exact h.matched c stop v hy
  missed := h.missed.ref hf

theorem action {act : Action Node} (h : Guides find lines e L) :
    Guides find lines (.action act e) L where
  inhabited := h.inhabited
  matched c stop v hy := by
    cases hy with
    | action hy _ => exact h.matched _ _ _ hy
    | action_stop _ hu => exact absurd rfl (hu stop v)
  missed := h.missed.action

theorem row_nil : Guides find lines (.seq []) 1 where
  inhabited := ⟨[], Language.nil_mem_one⟩
  matched c stop v hy := by
    cases hy
    exact .of_mem Language.nil_mem_one rfl
  missed c pos label hm := absurd hm not_misses_seq_nil

theorem row_cons (h : Guides find lines e L) (hs : Guides find lines (.seq es) M) :
    Guides find lines (.seq (e :: es)) (L * M) where
  inhabited := by
    obtain ⟨x, hx⟩ := h.inhabited
    obtain ⟨y, hy⟩ := hs.inhabited
    exact ⟨x ++ y, Language.append_mem_mul hx hy⟩
  matched c stop v hy := by
    obtain ⟨mid, x, xs, hx, hxs, rfl⟩ := hy.of_seq_cons
    exact (h.matched _ _ _ hx).mul (hs.matched _ _ _ hxs)
  missed := h.missed.row_cons hs.inhabited h.matched hs.missed

/-- A row of one item. -/
theorem row_one (h : Guides find lines e L) : Guides find lines (.seq [e]) L :=
  (h.row_cons row_nil).mono (mul_one L).le

/-- A choice between two expressions. -/
theorem choice_two {e' : Expr Node} (h : Guides find lines e L) (h' : Guides find lines e' L) :
    Guides find lines (.choice [e, e']) L where
  inhabited := h.inhabited
  matched c stop v hy := by
    cases hy with
    | choice_commit hy _ => exact h.matched _ _ _ hy
    | choice_next _ hy =>
      cases hy with
      | choice_commit hy _ => exact h'.matched _ _ _ hy
      | choice_next _ hy => cases hy
  missed := .choice fun e'' he'' => by
    simp only [List.mem_cons, List.not_mem_nil, or_false] at he''
    rcases he'' with rfl | rfl
    · exact h.missed
    · exact h'.missed

/-- Rounds pass as many texts as there are values, by induction on the match. -/
theorem rounds (h : Guides find lines e L) {c stop : Cursor} {vs : List (Value Node)}
    (hy : Yields find lines (.repeated 0 e) c (.matched stop (.list vs))) :
    Passes (L ^ vs.length) c.rest stop.rest := by
  generalize hr : Expr.repeated 0 e = r at hy
  generalize ho : Outcome.matched stop (.list vs) = o at hy
  induction hy generalizing stop vs with
  | round_last _ =>
    cases ho
    exact .of_mem (by rw [List.length_nil, pow_zero]; exact Language.nil_mem_one) rfl
  | round_empty hy _ =>
    cases hr
    cases ho
    rw [List.length_singleton, pow_one]
    exact h.matched _ _ _ hy
  | round_more hy _ _ _ ih =>
    cases hr
    cases ho
    rw [List.length_cons, pow_succ']
    exact (h.matched _ _ _ hy).mul (ih rfl rfl)
  | repeated_enough h0 =>
    cases hr
    exact absurd rfl h0
  | round_raised | round_later_raised | repeated_short | repeated_raised => cases ho
  | _ => cases hr

/-- Failures of a repetition are those of a round, behind any number of others. -/
theorem missed_rounds (h : Guides find lines e L) {least : Int} :
    Steers find lines (.repeated least e) (L * L∗) := by
  intro c pos label hm
  generalize hr : Expr.repeated least e = r at hm
  induction hm with
  | round hm =>
    cases hr
    exact (h.missed _ _ _ hm).before (Language.nil_mem_kstar L)
  | round_more hy _ _ ih =>
    cases hr
    refine ((ih rfl).behind hy.reaches (h.matched _ _ _ hy)).mono ?_
    exact mul_le_mul_right mul_kstar_le_kstar L
  | _ => cases hr

theorem many (h : Guides find lines e L) : Guides find lines (.repeated 0 e) L∗ where
  inhabited := ⟨[], Language.nil_mem_kstar L⟩
  matched c stop v hy := by
    obtain ⟨vs, rfl⟩ := hy.repeated_value
    exact (h.rounds hy).mono pow_le_kstar
  missed := h.missed_rounds.mono mul_kstar_le_kstar

theorem many1 (h : Guides find lines e L) : Guides find lines (.repeated 1 e) (L * L∗) where
  inhabited := by
    obtain ⟨x, hx⟩ := h.inhabited
    exact ⟨x ++ [], Language.append_mem_mul hx (Language.nil_mem_kstar L)⟩
  matched c stop v hy := by
    cases hy with
    | @repeated_enough _ _ _ _ vs _ hy hle =>
      obtain ⟨n, hn⟩ : ∃ n, vs.length = n + 1 := ⟨vs.length - 1, by omega⟩
      have hp := h.rounds hy
      rw [hn, pow_succ'] at hp
      exact hp.mono (mul_le_mul_right pow_le_kstar L)
  missed := h.missed_rounds

end Guides

end MessageIdl.Schema
