import MessageIdl.Proofs.Schema.Carrying
import MessageIdl.Proofs.Schema.Parsing
import MessageIdl.Text.Encoding

/-!
# Line breaks in schemas

Outside of comments a carriage return is a blank like a line feed, and in a comment between marks both are
text.  Only in a comment up to the end of its line do they differ: the comment goes on behind a carriage
return.  So a text may be read with its line breaks as they are or as line feeds, unless a carriage return
in such a comment stands by itself.

* `noStrayReturns`: no carriage return in such a comment stands by itself.
* `Unified`: a text of this kind, and its form with line feeds.
* `carries_unified`, `carries_unified_flip`: the two forms are texts of the same trees.
* `parse_unified`: they are parsed alike.
-/

namespace MessageIdl.Schema

open MessageIdl.Text
open scoped Computability

/-! ### Texts without stray carriage returns -/

/-- Where a character stands: in a comment up to the end of its line, in a comment between marks, or in
none. -/
inductive Place where
  | code
  | lineComment
  | blockComment
deriving DecidableEq

/-- In comments up to the end of their line, carriage returns stand only in front of a line feed or at
the very end of the text. -/
def noStrayReturns : Place → List Char → Bool
  | _, [] => true
  | .code, '/' :: '/' :: t => noStrayReturns .lineComment t
  | .code, '/' :: '*' :: t => noStrayReturns .blockComment t
  | .code, _ :: t => noStrayReturns .code t
  | .lineComment, '\n' :: t => noStrayReturns .code t
  | .lineComment, '\r' :: t => t.head?.all (· = '\n') && noStrayReturns .lineComment t
  | .lineComment, _ :: t => noStrayReturns .lineComment t
  | .blockComment, '*' :: '/' :: t => noStrayReturns .code t
  | .blockComment, _ :: t => noStrayReturns .blockComment t

theorem noStray_code_cons {c : Char} (hc : c ≠ '/') (t : List Char) :
    noStrayReturns .code (c :: t) = noStrayReturns .code t := by
  rw [noStrayReturns]
  · rintro t' rfl
    exact absurd rfl hc
  · rintro t' rfl
    exact absurd rfl hc

theorem noStray_line_cons {c : Char} (hfeed : c ≠ '\n') (hreturn : c ≠ '\r') (t : List Char) :
    noStrayReturns .lineComment (c :: t) = noStrayReturns .lineComment t := by
  rw [noStrayReturns]
  · exact hfeed
  · exact hreturn

theorem noStray_block_cons {c : Char} {t : List Char} (h : ¬ (c = '*' ∧ t.head? = some '/')) :
    noStrayReturns .blockComment (c :: t) = noStrayReturns .blockComment t := by
  rw [noStrayReturns]
  rintro t' rfl rfl
  exact h ⟨rfl, rfl⟩

/-! ### Unified line breaks -/

theorem unify_cons {c : Char} (hc : c ≠ '\r') (t : List Char) :
    unifyLineBreaks (c :: t) = c :: unifyLineBreaks t := by
  rw [unifyLineBreaks, if_neg hc]
  rintro rest rfl
  exact absurd rfl hc

/-- A carriage return counts as a line feed, and in front of a line feed as nothing. -/
theorem unify_return (t : List Char) :
    unifyLineBreaks ('\r' :: t) = '\n' :: unifyLineBreaks t ∨
      (∃ t', t = '\n' :: t') ∧ unifyLineBreaks ('\r' :: t) = unifyLineBreaks t := by
  cases t with
  | nil => exact .inl rfl
  | cons c t =>
    by_cases hc : c = '\n'
    · subst hc
      exact .inr ⟨⟨t, rfl⟩, (unify_cons (by decide) t).symm⟩
    · refine .inl ?_
      rw [unifyLineBreaks, if_pos rfl]
      rintro rest - h
      exact hc (List.cons.inj h).1

theorem unify_append {w : List Char} (hw : '\r' ∉ w) (t : List Char) :
    unifyLineBreaks (w ++ t) = w ++ unifyLineBreaks t := by
  induction w with
  | nil => rfl
  | cons c w ih =>
    rw [List.mem_cons, not_or] at hw
    rw [List.cons_append, unify_cons (fun h => hw.1 h.symm), ih hw.2, List.cons_append]

/-- What is no line feed was there before. -/
theorem unify_eq_cons {t u : List Char} {c : Char} (h : unifyLineBreaks t = c :: u) (hc : c ≠ '\n') :
    ∃ t', t = c :: t' ∧ c ≠ '\r' ∧ unifyLineBreaks t' = u := by
  cases t with
  | nil => cases h
  | cons d t =>
    by_cases hd : d = '\r'
    · subst hd
      rcases unify_return t with hr | ⟨⟨t', rfl⟩, hr⟩
      · rw [hr] at h
        exact absurd (List.cons.inj h).1.symm hc
      · rw [hr, unify_cons (by decide)] at h
        exact absurd (List.cons.inj h).1.symm hc
    · rw [unify_cons hd] at h
      obtain ⟨rfl, rfl⟩ := List.cons.inj h
      exact ⟨t, rfl, hd, rfl⟩

/-- A line feed was a line feed, both characters, or a carriage return by itself. -/
theorem unify_eq_lineFeed {t u : List Char} (h : unifyLineBreaks t = '\n' :: u) :
    ∃ t', unifyLineBreaks t' = u ∧
      (t = '\n' :: t' ∨ t = '\r' :: '\n' :: t' ∨ t = '\r' :: t' ∧ t'.head? ≠ some '\n') := by
  cases t with
  | nil => cases h
  | cons d t =>
    by_cases hd : d = '\r'
    · subst hd
      cases t with
      | nil => exact ⟨[], (List.cons.inj h).2, .inr (.inr ⟨rfl, nofun⟩)⟩
      | cons e t =>
        by_cases he : e = '\n'
        · subst he
          exact ⟨t, (List.cons.inj h).2, .inr (.inl rfl)⟩
        · have hhead : (e :: t).head? ≠ some '\n' := fun h0 => he (Option.some.inj h0)
          rcases unify_return (e :: t) with hr | ⟨⟨t', ht⟩, -⟩
          · rw [hr] at h
            exact ⟨e :: t, (List.cons.inj h).2, .inr (.inr ⟨rfl, hhead⟩)⟩
          · exact absurd (List.cons.inj ht).1 he
    · rw [unify_cons hd] at h
      obtain ⟨rfl, rfl⟩ := List.cons.inj h
      exact ⟨t, rfl, .inl rfl⟩

theorem unify_eq_nil {t : List Char} : unifyLineBreaks t = [] ↔ t = [] := by
  refine ⟨fun h => ?_, fun h => by rw [h]; rfl⟩
  cases t with
  | nil => rfl
  | cons c t =>
    by_cases hc : c = '\r'
    · subst hc
      rcases unify_return t with hr | ⟨⟨t', rfl⟩, hr⟩
      · rw [hr] at h
        cases h
      · rw [hr, unify_cons (by decide)] at h
        cases h
    · rw [unify_cons hc] at h
      cases h

theorem solid_unify {t : List Char} : Solid (unifyLineBreaks t) ↔ Solid t := by
  cases t with
  | nil => exact Iff.rfl
  | cons c t =>
    by_cases hc : c = '\r'
    · subst hc
      have hfeed (u : List Char) : ¬ Solid ('\n' :: u) := fun h => (h '\n' rfl).1 (by decide)
      refine iff_of_false ?_ fun h => (h '\r' rfl).1 (by decide)
      rcases unify_return t with hr | ⟨⟨t', rfl⟩, hr⟩
      · rw [hr]
        exact hfeed _
      · rw [hr, unify_cons (by decide)]
        exact hfeed _
    · rw [unify_cons hc]
      exact Iff.rfl

/-! ### Comments and their forms with line feeds -/

theorem reads_unit_append {u t r : List Char} (hu : u ∈ unitText) (h : Reads gapText t r) :
    Reads gapText (u ++ t) r :=
  ((Reads.of_mem hu t).mul h).mono mul_kstar_le_kstar

theorem reads_blank_cons {c : Char} (hc : c ∈ blanks) {t r : List Char} (h : Reads gapText t r) :
    Reads gapText (c :: t) r := reads_unit_append (blank_mem_unitText hc) h

theorem reads_lineComment {s t r : List Char} (hs : '\n' ∉ s) (h : Reads gapText t r) :
    Reads gapText ('/' :: '/' :: (s ++ '\n' :: t)) r := by
  have hread := reads_unit_append (lineComment_mem_unitText hs) h
  simpa only [List.cons_append, List.append_assoc, List.nil_append] using hread

theorem reads_blockComment {s t r : List Char} (hs : ¬ ['*', '/'] <:+: s) (h : Reads gapText t r) :
    Reads gapText ('/' :: '*' :: (s ++ '*' :: '/' :: t)) r := by
  have hread := reads_unit_append (blockComment_mem_unitText hs) h
  simpa only [List.cons_append, List.append_assoc, List.nil_append] using hread

theorem reads_openComment {s : List Char} (hs : '\n' ∉ s) : Reads gapText ('/' :: '/' :: s) [] :=
  ⟨[], Language.nil_mem_kstar _, _, rfl, .inr ⟨⟨s, hs, rfl⟩, rfl⟩⟩

/-- A comment up to its line feed, where a carriage return may stand in front of the line feed. -/
theorem unify_line {s t : List Char} (hs : '\n' ∉ s)
    (h : noStrayReturns .lineComment (s ++ '\n' :: t) = true) :
    noStrayReturns .code t = true ∧ ∃ s', '\n' ∉ s' ∧
      unifyLineBreaks (s ++ '\n' :: t) = s' ++ '\n' :: unifyLineBreaks t := by
  induction s with
  | nil => exact ⟨h, [], List.not_mem_nil, unify_cons (by decide) t⟩
  | cons c s ih =>
    rw [List.mem_cons, not_or] at hs
    rw [List.cons_append] at h
    by_cases hc : c = '\r'
    · subst hc
      obtain ⟨hhead, hrest⟩ := (Bool.and_eq_true _ _).mp h
      cases s with
      | nil => exact ⟨hrest, [], List.not_mem_nil, rfl⟩
      | cons d s => exact absurd (of_decide_eq_true hhead).symm (fun h0 => hs.2 (h0 ▸ List.mem_cons_self))
    · rw [noStray_line_cons (fun h0 => hs.1 h0.symm) hc] at h
      obtain ⟨hcode, s', hs', hunify⟩ := ih hs.2 h
      refine ⟨hcode, c :: s', List.not_mem_cons_of_ne_of_not_mem hs.1 hs', ?_⟩
      rw [List.cons_append, unify_cons hc, hunify, List.cons_append]

/-- A comment without a line feed, where a carriage return may stand at the very end. -/
theorem unify_lastLine {s : List Char} (hs : '\n' ∉ s)
    (h : noStrayReturns .lineComment s = true) :
    ∃ s', '\n' ∉ s' ∧ (unifyLineBreaks s = s' ∨ unifyLineBreaks s = s' ++ ['\n']) := by
  induction s with
  | nil => exact ⟨[], List.not_mem_nil, .inl rfl⟩
  | cons c s ih =>
    rw [List.mem_cons, not_or] at hs
    by_cases hc : c = '\r'
    · subst hc
      obtain ⟨hhead, -⟩ := (Bool.and_eq_true _ _).mp h
      cases s with
      | nil => exact ⟨[], List.not_mem_nil, .inr rfl⟩
      | cons d s => exact absurd (of_decide_eq_true hhead).symm (fun h0 => hs.2 (h0 ▸ List.mem_cons_self))
    · rw [noStray_line_cons (fun h0 => hs.1 h0.symm) hc] at h
      obtain ⟨s', hs', hunify⟩ := ih hs.2 h
      refine ⟨c :: s', List.not_mem_cons_of_ne_of_not_mem hs.1 hs', ?_⟩
      rw [unify_cons hc]
      exact hunify.imp (fun h0 => by rw [h0]) fun h0 => by rw [h0, List.cons_append]

/-- The line feed of a comment comes from a line break, or the comment reaches to the end. -/
theorem of_unify_line {s u : List Char} (hs : '\n' ∉ s) {t : List Char}
    (h : noStrayReturns .lineComment t = true) (hu : unifyLineBreaks t = s ++ '\n' :: u) :
    (∃ s' t', '\n' ∉ s' ∧ t = s' ++ '\n' :: t' ∧ noStrayReturns .code t' = true ∧
      unifyLineBreaks t' = u) ∨ '\n' ∉ t ∧ u = [] := by
  induction s generalizing t with
  | nil =>
    obtain ⟨t', ht', rfl | rfl | ⟨rfl, hhead⟩⟩ := unify_eq_lineFeed hu
    · exact .inl ⟨[], t', List.not_mem_nil, rfl, h, ht'⟩
    · exact .inl ⟨['\r'], t', by decide, rfl, ((Bool.and_eq_true _ _).mp h).2, ht'⟩
    · obtain ⟨hnext, -⟩ := (Bool.and_eq_true _ _).mp h
      cases t' with
      | nil => exact .inr ⟨by decide, ht'.symm⟩
      | cons d t' => exact absurd (congrArg some (of_decide_eq_true hnext)) hhead
  | cons c s ih =>
    rw [List.mem_cons, not_or] at hs
    obtain ⟨t', rfl, hc, ht'⟩ := unify_eq_cons hu fun h0 => hs.1 h0.symm
    rw [noStray_line_cons (fun h0 => hs.1 h0.symm) hc] at h
    rcases ih hs.2 h ht' with ⟨s', t'', hs', rfl, hcode, hu'⟩ | ⟨hfeed, hnil⟩
    · exact .inl ⟨c :: s', t'', List.not_mem_cons_of_ne_of_not_mem hs.1 hs', rfl, hcode, hu'⟩
    · exact .inr ⟨List.not_mem_cons_of_ne_of_not_mem hs.1 hfeed, hnil⟩

/-- A comment without a line feed was one before. -/
theorem of_unify_lastLine {t : List Char} (h : '\n' ∉ unifyLineBreaks t) : '\n' ∉ t := by
  induction t with
  | nil => exact h
  | cons c t ih =>
    have hc : c ≠ '\r' := by
      rintro rfl
      rcases unify_return t with hr | ⟨⟨t', rfl⟩, hr⟩
      · exact h (hr ▸ List.mem_cons_self)
      · rw [hr, unify_cons (by decide)] at h
        exact h List.mem_cons_self
    rw [unify_cons hc, List.mem_cons, not_or] at h
    exact List.not_mem_cons_of_ne_of_not_mem h.1 (ih h.2)

/-- No closing mark begins with a character in front of a text without closing marks. -/
theorem not_closing {c : Char} {s : List Char} (hs : ¬ ['*', '/'] <+: c :: s) (t : List Char) :
    ¬ (c = '*' ∧ (s ++ '*' :: '/' :: t).head? = some '/') := by
  rintro ⟨rfl, hhead⟩
  cases s with
  | nil => cases hhead
  | cons d s =>
    cases hhead
    exact hs ⟨s, rfl⟩

theorem noStray_block {s : List Char} (hs : ¬ ['*', '/'] <:+: s) (t : List Char) :
    noStrayReturns .blockComment (s ++ '*' :: '/' :: t) = noStrayReturns .code t := by
  induction s with
  | nil => rfl
  | cons c s ih =>
    rw [List.infix_cons_iff, not_or] at hs
    rw [List.cons_append, noStray_block_cons (not_closing hs.1 t), ih hs.2]

/-- A character that is no star begins no closing mark. -/
theorem not_infix_cons {c : Char} (hc : c ≠ '*') {s : List Char} (hs : ¬ ['*', '/'] <:+: s) :
    ¬ ['*', '/'] <:+: c :: s := by
  rw [List.infix_cons_iff, not_or]
  exact ⟨fun h => hc (List.cons_prefix_cons.mp h).1.symm, hs⟩

theorem unify_block {s : List Char} (hs : ¬ ['*', '/'] <:+: s) (t : List Char) :
    ∃ s', ¬ ['*', '/'] <:+: s' ∧
      unifyLineBreaks (s ++ '*' :: '/' :: t) = s' ++ '*' :: '/' :: unifyLineBreaks t := by
  induction s with
  | nil => exact ⟨[], by simp, unify_append (w := ['*', '/']) (by decide) t⟩
  | cons c s ih =>
    rw [List.infix_cons_iff, not_or] at hs
    obtain ⟨s', hs', hunify⟩ := ih hs.2
    rw [List.cons_append]
    by_cases hc : c = '\r'
    · subst hc
      rcases unify_return (s ++ '*' :: '/' :: t) with hr | ⟨-, hr⟩
      · exact ⟨'\n' :: s', not_infix_cons (by decide) hs', by rw [hr, hunify, List.cons_append]⟩
      · exact ⟨s', hs', hr.trans hunify⟩
    · refine ⟨c :: s', ?_, by rw [unify_cons hc, hunify, List.cons_append]⟩
      rw [List.infix_cons_iff, not_or]
      refine ⟨fun hp => ?_, hs'⟩
      obtain ⟨rest, hrest⟩ := hp
      obtain ⟨rfl, rfl⟩ := List.cons.inj hrest
      obtain ⟨t', ht', -⟩ := unify_eq_cons hunify (by decide)
      exact not_closing hs.1 t ⟨rfl, by rw [ht']; rfl⟩

theorem of_unify_block {s u : List Char} (hs : ¬ ['*', '/'] <:+: s) {t : List Char}
    (hu : unifyLineBreaks t = s ++ '*' :: '/' :: u) :
    ∃ s' t', ¬ ['*', '/'] <:+: s' ∧ t = s' ++ '*' :: '/' :: t' ∧ unifyLineBreaks t' = u := by
  induction s generalizing t with
  | nil =>
    obtain ⟨t₁, rfl, -, ht₁⟩ := unify_eq_cons hu (by decide)
    obtain ⟨t₂, rfl, -, ht₂⟩ := unify_eq_cons ht₁ (by decide)
    exact ⟨[], t₂, by simp, rfl, ht₂⟩
  | cons c s ih =>
    rw [List.infix_cons_iff, not_or] at hs
    by_cases hc : c = '\n'
    · subst hc
      obtain ⟨t₁, ht₁, hbreak⟩ := unify_eq_lineFeed hu
      obtain ⟨s', t', hs', rfl, hu'⟩ := ih hs.2 ht₁
      rcases hbreak with rfl | rfl | ⟨rfl, -⟩
      · exact ⟨'\n' :: s', t', not_infix_cons (by decide) hs', rfl, hu'⟩
      · exact ⟨'\r' :: '\n' :: s', t',
          not_infix_cons (by decide) (not_infix_cons (by decide) hs'), rfl, hu'⟩
      · exact ⟨'\r' :: s', t', not_infix_cons (by decide) hs', rfl, hu'⟩
    · obtain ⟨t₁, rfl, -, ht₁⟩ := unify_eq_cons hu hc
      obtain ⟨s', t', hs', rfl, hu'⟩ := ih hs.2 ht₁
      refine ⟨c :: s', t', ?_, rfl, hu'⟩
      rw [List.infix_cons_iff, not_or]
      refine ⟨fun hp => ?_, hs'⟩
      obtain ⟨rest, hrest⟩ := hp
      obtain ⟨rfl, rfl⟩ := List.cons.inj hrest
      change unifyLineBreaks ('/' :: (rest ++ '*' :: '/' :: t')) = s ++ '*' :: '/' :: u at ht₁
      rw [unify_cons (by decide)] at ht₁
      exact not_closing hs.1 u ⟨rfl, by rw [← ht₁]; rfl⟩

/-! ### Both forms are texts of the same trees -/

/-- A text without stray carriage returns, and its form with line feeds. -/
def Unified (t u : List Char) : Prop := noStrayReturns .code t = true ∧ unifyLineBreaks t = u

theorem noStray_plain {w : List Char} (hw : ∀ c ∈ w, c ∉ blanks ∧ c ≠ '/') (t : List Char) :
    noStrayReturns .code (w ++ t) = noStrayReturns .code t := by
  induction w with
  | nil => rfl
  | cons c w ih =>
    obtain ⟨hc, hw⟩ := List.forall_mem_cons.mp hw
    rw [List.cons_append, noStray_code_cons hc.2, ih hw]

theorem return_not_mem_plain {w : List Char} (hw : ∀ c ∈ w, c ∉ blanks ∧ c ≠ '/') : '\r' ∉ w :=
  fun h => (hw _ h).1 (by decide)

theorem of_unify_plain {w : List Char} (hw : ∀ c ∈ w, c ∉ blanks ∧ c ≠ '/') {t u : List Char}
    (h : unifyLineBreaks t = w ++ u) : ∃ t', t = w ++ t' ∧ unifyLineBreaks t' = u := by
  induction w generalizing t with
  | nil => exact ⟨t, rfl, h⟩
  | cons c w ih =>
    obtain ⟨hc, hw⟩ := List.forall_mem_cons.mp hw
    have hfeed : c ≠ '\n' := fun h0 => hc.1 (h0 ▸ by decide)
    obtain ⟨t', rfl, -, ht'⟩ := unify_eq_cons h hfeed
    obtain ⟨t'', rfl, ht''⟩ := ih hw ht'
    exact ⟨t'', rfl, ht''⟩

/-- The three forms of a unit with a text behind it. -/
theorem unit_append {v : List Char} (hv : v ∈ unitText) (t : List Char) :
    (∃ c ∈ blanks, v ++ t = c :: t) ∨
      (∃ s, '\n' ∉ s ∧ v ++ t = '/' :: '/' :: (s ++ '\n' :: t)) ∨
        ∃ s, ¬ ['*', '/'] <:+: s ∧ v ++ t = '/' :: '*' :: (s ++ '*' :: '/' :: t) := by
  rcases mem_unitText hv with ⟨c, hc, rfl⟩ | ⟨s, hs, rfl⟩ | ⟨s, hs, rfl⟩
  · exact .inl ⟨c, hc, rfl⟩
  · exact .inr (.inl ⟨s, hs, by simp⟩)
  · exact .inr (.inr ⟨s, hs, by simp⟩)

/-- A blank in front of a gap is one in the form with line feeds, unless a line feed follows it. -/
theorem reads_unify_blank {c : Char} (hc : c ∈ blanks) {t r : List Char}
    (h : Reads gapText (unifyLineBreaks t) r) : Reads gapText (unifyLineBreaks (c :: t)) r := by
  by_cases hreturn : c = '\r'
  · subst hreturn
    rcases unify_return t with hu | ⟨-, hu⟩
    · exact hu ▸ reads_blank_cons (by decide) h
    · exact hu ▸ h
  · rw [unify_cons hreturn]
    exact reads_blank_cons hc h

/-- A unit of a gap is read as a gap in the form with line feeds. -/
theorem unit_unify {v t : List Char} (hv : v ∈ unitText)
    (ht : noStrayReturns .code (v ++ t) = true) :
    noStrayReturns .code t = true ∧ ∀ r, Reads gapText (unifyLineBreaks t) r →
      Reads gapText (unifyLineBreaks (v ++ t)) r := by
  rcases unit_append hv t with ⟨c, hc, hvt⟩ | ⟨s, hs, hvt⟩ | ⟨s, hs, hvt⟩
  · rw [hvt] at ht ⊢
    rw [noStray_code_cons fun h0 => slash_not_mem_blanks (h0 ▸ hc)] at ht
    exact ⟨ht, fun r hread => reads_unify_blank hc hread⟩
  · rw [hvt] at ht ⊢
    obtain ⟨hcode, s', hs', hunify⟩ := unify_line hs ht
    refine ⟨hcode, fun r hread => ?_⟩
    rw [unify_cons (by decide), unify_cons (by decide), hunify]
    exact reads_lineComment hs' hread
  · rw [hvt] at ht ⊢
    obtain ⟨s', hs', hunify⟩ := unify_block hs t
    refine ⟨(noStray_block hs t).symm.trans ht, fun r hread => ?_⟩
    rw [unify_cons (by decide), unify_cons (by decide), hunify]
    exact reads_blockComment hs' hread

/-- A gap and its form with line feeds, unit by unit. -/
theorem gap_unify (units : List (List Char)) (hunits : ∀ v ∈ units, v ∈ unitText) {tail r : List Char}
    (hl : Leftover tail r) (ht : noStrayReturns .code (units.flatten ++ tail) = true) :
    Reads gapText (unifyLineBreaks (units.flatten ++ tail)) (unifyLineBreaks r) ∧
      noStrayReturns .code r = true := by
  induction units with
  | nil =>
    rcases hl with rfl | ⟨⟨s, hs, rfl⟩, rfl⟩
    · exact ⟨(Reads.one _).mono one_le_kstar, ht⟩
    · obtain ⟨s', hs', hunify⟩ := unify_lastLine hs ht
      refine ⟨?_, rfl⟩
      show Reads gapText (unifyLineBreaks ('/' :: '/' :: s)) []
      rw [unify_cons (by decide), unify_cons (by decide)]
      rcases hunify with hunify | hunify
      · rw [hunify]
        exact reads_openComment hs'
      · rw [hunify]
        exact reads_lineComment hs' ((Reads.one []).mono one_le_kstar)
  | cons v units ih =>
    obtain ⟨hv, hrest⟩ := List.forall_mem_cons.mp hunits
    rw [List.flatten_cons, List.append_assoc] at ht ⊢
    obtain ⟨hcode, hreads⟩ := unit_unify hv ht
    obtain ⟨hread, hr⟩ := ih hrest hcode
    exact ⟨hreads _ hread, hr⟩

/-- A blank of the form with line feeds comes from one or two blanks. -/
theorem of_unify_blank {c : Char} (hc : c ∈ blanks) {t u : List Char}
    (ht : noStrayReturns .code t = true) (hu : unifyLineBreaks t = c :: u) :
    ∃ t', Unified t' u ∧ ∀ r, Reads gapText t' r → Reads gapText t r := by
  by_cases hfeed : c = '\n'
  · subst hfeed
    obtain ⟨t', ht', rfl | rfl | ⟨rfl, -⟩⟩ := unify_eq_lineFeed hu
    · rw [noStray_code_cons (by decide)] at ht
      exact ⟨t', ⟨ht, ht'⟩, fun r hread => reads_blank_cons hc hread⟩
    · rw [noStray_code_cons (by decide), noStray_code_cons (by decide)] at ht
      exact ⟨t', ⟨ht, ht'⟩, fun r hread => reads_blank_cons (by decide) (reads_blank_cons hc hread)⟩
    · rw [noStray_code_cons (by decide)] at ht
      exact ⟨t', ⟨ht, ht'⟩, fun r hread => reads_blank_cons (by decide) hread⟩
  · obtain ⟨t', rfl, -, ht'⟩ := unify_eq_cons hu hfeed
    rw [noStray_code_cons fun h0 => slash_not_mem_blanks (h0 ▸ hc)] at ht
    exact ⟨t', ⟨ht, ht'⟩, fun r hread => reads_blank_cons hc hread⟩

/-- A unit of the form with line feeds was a gap before.  If it is a comment that ended the text with a
carriage return, that gap reaches to the end. -/
theorem of_unify_unit {v t u : List Char} (hv : v ∈ unitText) (ht : noStrayReturns .code t = true)
    (hu : unifyLineBreaks t = v ++ u) :
    (∃ t', Unified t' u ∧ ∀ r, Reads gapText t' r → Reads gapText t r) ∨
      u = [] ∧ Reads gapText t [] := by
  rcases unit_append hv u with ⟨c, hc, hvu⟩ | ⟨s, hs, hvu⟩ | ⟨s, hs, hvu⟩
  · exact .inl (of_unify_blank hc ht (hu.trans hvu))
  · obtain ⟨t₁, rfl, -, ht₁⟩ := unify_eq_cons (hu.trans hvu) (by decide)
    obtain ⟨t₂, rfl, -, ht₂⟩ := unify_eq_cons ht₁ (by decide)
    rcases of_unify_line hs ht ht₂ with ⟨s', t', hs', rfl, hcode, hu'⟩ | ⟨hfeed, hnil⟩
    · exact .inl ⟨t', ⟨hcode, hu'⟩, fun r hread => reads_lineComment hs' hread⟩
    · exact .inr ⟨hnil, reads_openComment hfeed⟩
  · obtain ⟨t₁, rfl, -, ht₁⟩ := unify_eq_cons (hu.trans hvu) (by decide)
    obtain ⟨t₂, rfl, -, ht₂⟩ := unify_eq_cons ht₁ (by decide)
    obtain ⟨s', t', hs', rfl, hu'⟩ := of_unify_block hs ht₂
    have hcode : noStrayReturns .code t' = true := (noStray_block hs' t').symm.trans ht
    exact .inl ⟨t', ⟨hcode, hu'⟩, fun r hread => reads_blockComment hs' hread⟩

/-- A gap in the form with line feeds was one before, unit by unit. -/
theorem gap_of_unify (units : List (List Char)) (hunits : ∀ v ∈ units, v ∈ unitText)
    {tail r : List Char} (hl : Leftover tail r) {t : List Char}
    (ht : noStrayReturns .code t = true) (hu : unifyLineBreaks t = units.flatten ++ tail) :
    ∃ r₀, Reads gapText t r₀ ∧ Unified r₀ r := by
  induction units generalizing t with
  | nil =>
    rcases hl with rfl | ⟨⟨s, hs, rfl⟩, rfl⟩
    · exact ⟨t, (Reads.one t).mono one_le_kstar, ht, hu⟩
    · obtain ⟨t₁, rfl, -, ht₁⟩ := unify_eq_cons hu (by decide)
      obtain ⟨t₂, rfl, -, ht₂⟩ := unify_eq_cons ht₁ (by decide)
      exact ⟨[], reads_openComment (of_unify_lastLine (ht₂ ▸ hs)), rfl, rfl⟩
  | cons v units ih =>
    obtain ⟨hv, hrest⟩ := List.forall_mem_cons.mp hunits
    rw [List.flatten_cons, List.append_assoc] at hu
    rcases of_unify_unit hv ht hu with ⟨t', ⟨hcode, hu'⟩, hreads⟩ | ⟨hnil, hread⟩
    · obtain ⟨r₀, hread, hr⟩ := ih hrest hcode hu'
      exact ⟨r₀, hreads r₀ hread, hr⟩
    · cases (List.append_eq_nil_iff.mp hnil).2
      cases hl.of_nil
      exact ⟨[], hread, rfl, rfl⟩

theorem carries_unified : Carries Unified where
  nil := by
    rintro t _ ⟨-, rfl⟩
    exact unify_eq_nil.symm
  solid := by
    rintro t _ ⟨-, rfl⟩
    exact solid_unify.symm
  plain := by
    rintro w t _ hw ⟨ht, rfl⟩
    rw [noStray_plain hw] at ht
    exact ⟨unifyLineBreaks t, unify_append (return_not_mem_plain hw) t, ht, rfl⟩
  gap := by
    rintro t _ r ⟨ht, rfl⟩ ⟨g, hg, tail, rfl, hl⟩ -
    obtain ⟨units, rfl, hunits⟩ := Language.mem_kstar.mp hg
    obtain ⟨hread, hr⟩ := gap_unify units hunits hl ht
    exact ⟨unifyLineBreaks r, hread, hr, rfl⟩

theorem carries_unified_flip : Carries (flip Unified) where
  nil := by
    rintro _ t ⟨-, rfl⟩
    exact unify_eq_nil
  solid := by
    rintro _ t ⟨-, rfl⟩
    exact solid_unify
  plain := by
    rintro w u t hw ⟨ht, hu⟩
    obtain ⟨t', rfl, hu'⟩ := of_unify_plain hw hu
    rw [noStray_plain hw] at ht
    exact ⟨t', rfl, ht, hu'⟩
  gap := by
    rintro u t r ⟨ht, hu⟩ ⟨g, hg, tail, rfl, hl⟩ -
    obtain ⟨units, rfl, hunits⟩ := Language.mem_kstar.mp hg
    exact gap_of_unify units hunits hl ht hu

/-- **A text without stray carriage returns and its form with line feeds are texts of the same trees.** -/
theorem mem_fileText_unify {t : List Char} (ht : noStrayReturns .code t = true) (f : SchemaFile) :
    unifyLineBreaks t ∈ fileText f ↔ t ∈ fileText f := by
  have hunified : Unified t (unifyLineBreaks t) := ⟨ht, rfl⟩
  exact ⟨carries_unified_flip.mem_fileText hunified, carries_unified.mem_fileText hunified⟩

/-- Both forms are parsed to trees that say the same, or both are rejected. -/
theorem parse_unified (file file' : String) {src : String}
    (h : noStrayReturns .code src.toList = true) :
    (∃ f g, parse file src = .ok f ∧
      parse file' (String.ofList (unifyLineBreaks src.toList)) = .ok g ∧ g.Same f) ∨
    (∃ e, parse file src = .error (.rejected e)) ∧
      ∃ e, parse file' (String.ofList (unifyLineBreaks src.toList)) = .error (.rejected e) := by
  have hmem (f : SchemaFile) : (String.ofList (unifyLineBreaks src.toList)).toList ∈ fileText f
      ↔ src.toList ∈ fileText f := by
    rw [String.toList_ofList]
    exact mem_fileText_unify h f
  rcases parse_cases file src with ⟨f, hf, hpath, htext⟩ | ⟨hrejected, hnot⟩
  · obtain ⟨g, hg, hsame⟩ := parse_of_mem_fileText file' ((hmem f).mpr htext) hpath
    exact .inl ⟨f, g, hf, hg, hsame⟩
  · rcases parse_cases file' (String.ofList (unifyLineBreaks src.toList)) with
      ⟨g, -, -, htext⟩ | ⟨hrejected', -⟩
    · exact absurd ((hmem g).mp htext) (hnot g)
    · exact .inr ⟨hrejected, hrejected'⟩

end MessageIdl.Schema
