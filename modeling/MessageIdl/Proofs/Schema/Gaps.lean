import MessageIdl.Proofs.Schema.Rules

/-!
# Gaps

The reader takes a gap unit by unit until no unit begins.  That is the longest gap there is, and at the
end of the input also a comment without its line feed.

* `blank_scan`, `lineLength_append`, `beforeClose_append`: what the scanners take.
* `gapUnit_ensures`, `takes_gapUnit`: one unit.
* `gap_ensures`, `takes_gap`, `gap1_ensures`, `takes_gap1`: gaps.
-/

namespace MessageIdl.Schema

open MessageIdl.Peg MessageIdl.Source
open scoped Computability

/-! ### What the scanners take -/

theorem blank_scan (c : Char) (t : List Char) :
    blankPattern.scan (c :: t) = if c ∈ blanks then some 1 else none := by
  by_cases hc : c ∈ blanks
  · simp [blankPattern, Pattern.run, Pattern.front, Pattern.leading, hc]
  · simp [blankPattern, Pattern.run, Pattern.front, Pattern.leading, hc]

theorem blank_scan_nil : blankPattern.scan [] = none := rfl

/-- A line with its line feed. -/
theorem lineLength_append {s : List Char} (hs : '\n' ∉ s) (t : List Char) :
    lineLength (s ++ '\n' :: t) = s.length + 1 := by
  induction s with
  | nil => rfl
  | cons c s ih =>
    rw [List.mem_cons, not_or] at hs
    rw [List.cons_append, lineLength, if_neg fun h => hs.1 h.symm, ih hs.2, List.length_cons]

/-- A last line without a line feed. -/
theorem lineLength_eq_length {s : List Char} (hs : '\n' ∉ s) : lineLength s = s.length := by
  induction s with
  | nil => rfl
  | cons c s ih =>
    rw [List.mem_cons, not_or] at hs
    rw [lineLength, if_neg fun h => hs.1 h.symm, ih hs.2, List.length_cons]

/-- A text of several lines has a first one. -/
theorem exists_line {t : List Char} (h : '\n' ∈ t) :
    ∃ s rest, '\n' ∉ s ∧ t = s ++ '\n' :: rest := by
  obtain ⟨s, rest, rfl, hs⟩ := List.eq_append_cons_of_mem h
  exact ⟨s, rest, hs, rfl⟩

/-- The text of a comment up to its closing mark. -/
theorem beforeClose_append {s : List Char} (hs : ¬ ['*', '/'] <:+: s) (t : List Char) :
    beforeClose (s ++ '*' :: '/' :: t) = s.length := by
  induction s with
  | nil => rfl
  | cons c s ih =>
    rw [List.infix_cons_iff, not_or] at hs
    have hc : ¬ (c = '*' ∧ (s ++ '*' :: '/' :: t).head? = some '/') := by
      rintro ⟨rfl, hh⟩
      cases s with
      | nil => cases hh
      | cons d s =>
        cases hh
        exact hs.1 ⟨s, rfl⟩
    rw [List.cons_append, beforeClose, if_neg hc, ih hs.2, List.length_cons]

/-- There is no closing mark in the text of a comment. -/
theorem not_infix_take_beforeClose (t : List Char) :
    ¬ ['*', '/'] <:+: t.take (beforeClose t) := by
  induction t with
  | nil => simp [beforeClose]
  | cons c t ih =>
    rw [beforeClose]
    split
    · simp
    · rename_i hc
      rw [List.take_succ_cons, List.infix_cons_iff, not_or]
      refine ⟨fun hp => hc ?_, ih⟩
      obtain ⟨r, hr⟩ := hp
      rw [List.cons_append, List.cons.injEq] at hr
      refine ⟨hr.1.symm, ?_⟩
      have hhead : (t.take (beforeClose t)).head? = some '/' := by rw [← hr.2]; rfl
      rw [List.head?_take] at hhead
      split at hhead
      · cases hhead
      · exact hhead

/-! ### One unit -/

section Unit

variable {find : String → Option (Expr Node)} {lines : LineIndex}

theorem blank_mem_unitText {c : Char} (hc : c ∈ blanks) : [c] ∈ unitText := .inl (.inl ⟨c, hc, rfl⟩)

theorem mem_lineCommentText {s : List Char} (hs : '\n' ∉ s) :
    '/' :: '/' :: (s ++ ['\n']) ∈ lineCommentText :=
  have hopen : '/' :: '/' :: s ∈ openCommentText := ⟨s, hs, rfl⟩
  Language.append_mem_mul hopen (mem_word.mpr rfl)

theorem lineComment_mem_unitText {s : List Char} (hs : '\n' ∉ s) :
    '/' :: '/' :: (s ++ ['\n']) ∈ unitText := .inl (.inr (mem_lineCommentText hs))

theorem blockComment_mem_unitText {s : List Char} (hs : ¬ ['*', '/'] <:+: s) :
    '/' :: '*' :: (s ++ ['*', '/']) ∈ unitText := .inr ⟨s, hs, rfl⟩

/-- The three forms of a unit. -/
theorem mem_unitText {u : List Char} (h : u ∈ unitText) :
    (∃ c ∈ blanks, u = [c]) ∨ (∃ s, '\n' ∉ s ∧ u = '/' :: '/' :: (s ++ ['\n'])) ∨
      ∃ s, ¬ ['*', '/'] <:+: s ∧ u = '/' :: '*' :: (s ++ ['*', '/']) := by
  rcases h with (h | h) | h
  · exact .inl h
  · obtain ⟨x, ⟨s, hs, rfl⟩, y, hy, rfl⟩ := Language.mem_mul.mp h
    cases mem_word.mp hy
    exact .inr (.inl ⟨s, hs, rfl⟩)
  · exact .inr (.inr h)

/-- A blank is one of the blanks. -/
theorem blank_taken {t : List Char} {n : Nat} (hs : blankPattern.scan t = some n) :
    t.take n ∈ blankText := by
  cases t with
  | nil =>
    rw [blank_scan_nil] at hs
    cases hs
  | cons d t =>
    rw [blank_scan] at hs
    split at hs
    · rename_i hd
      cases hs
      exact ⟨d, hd, rfl⟩
    · cases hs

/-- A comment is taken with its line feed, or up to the end of the input. -/
theorem lineComment_taken {t : List Char} {n : Nat} (hs : lineCommentPattern.scan t = some n) :
    t.take n ∈ lineCommentText ∨ t ∈ openCommentText ∧ t.drop n = [] := by
  change scanLineComment t = some n at hs
  unfold scanLineComment at hs
  split at hs
  · rename_i t
    cases hs
    by_cases hnl : '\n' ∈ t
    · obtain ⟨s, rest, hs', rfl⟩ := exists_line hnl
      have htake : ('/' :: '/' :: (s ++ '\n' :: rest)).take (s.length + 1 + 2)
          = '/' :: '/' :: (s ++ ['\n']) := by simp [List.take_append]
      rw [lineLength_append hs', htake]
      exact .inl (mem_lineCommentText hs')
    · rw [lineLength_eq_length hnl]
      exact .inr ⟨⟨t, hnl, rfl⟩, List.drop_eq_nil_of_le (Nat.le_refl _)⟩
  · cases hs

theorem blank_ensures : Ensures find lines blank
    (fun c stop _ => ∃ u ∈ unitText, c.rest = u ++ stop.rest) := by
  refine (Ensures.pattern blankPattern).imp fun c stop v _ h => ?_
  obtain ⟨n, hs, rfl, rfl⟩ := h
  exact ⟨_, .inl (.inl (blank_taken hs)), (List.take_append_drop n c.rest).symm⟩

theorem lineComment_ensures : Ensures find lines lineComment
    (fun c stop _ => (∃ u ∈ unitText, c.rest = u ++ stop.rest) ∨
      c.rest ∈ openCommentText ∧ stop.rest = []) := by
  refine (Ensures.pattern lineCommentPattern).imp fun c stop v _ h => ?_
  obtain ⟨n, hs, rfl, rfl⟩ := h
  refine (lineComment_taken hs).imp_left fun hmem => ?_
  exact ⟨_, .inl (.inr hmem), (List.take_append_drop n c.rest).symm⟩

theorem blockComment_ensures : Ensures find lines blockComment
    (fun c stop _ => ∃ u ∈ unitText, c.rest = u ++ stop.rest) := by
  refine Ensures.imp ((Ensures.literal _).row_cons ((Ensures.pattern _).row_cons
    ((Ensures.literal _).row_cons .nil))) fun c stop v _ h => ?_
  obtain ⟨xs, -, c₁, _, _, ⟨h₁, -⟩, ⟨c₂, _, _, ⟨n, hn, rfl, -⟩, ⟨c₃, _, _, ⟨h₃, -⟩, ⟨rfl, -⟩, -⟩,
    -⟩, -⟩ := h
  cases hn
  change c.rest = '/' :: '*' :: c₁.rest at h₁
  change c₁.rest.drop (beforeClose c₁.rest) = '*' :: '/' :: stop.rest at h₃
  have hsplit := List.take_append_drop (beforeClose c₁.rest) c₁.rest
  refine ⟨_, blockComment_mem_unitText (not_infix_take_beforeClose c₁.rest), ?_⟩
  rw [h₁]
  conv_lhs => rw [← hsplit, h₃]
  simp only [List.cons_append, List.append_assoc, List.nil_append]

/-- A unit that is taken is one of the language, or an open comment at the end. -/
theorem gapUnit_ensures : Ensures find lines gapUnit
    (fun c stop _ => (∃ u ∈ unitText, c.rest = u ++ stop.rest) ∨
      c.rest ∈ openCommentText ∧ stop.rest = []) := by
  refine (blank_ensures.imp fun c stop v _ h => .inl h).choice_cons ?_
  refine lineComment_ensures.choice_cons ?_
  exact (blockComment_ensures.imp fun c stop v _ h => .inl h).choice_cons .choice_nil

theorem refuses_blank {t : List Char} (h : ∀ c ∈ t.head?, c ∉ blanks) :
    Refuses find lines blank t := by
  refine .pattern ?_
  cases t with
  | nil => exact blank_scan_nil
  | cons c t => rw [blank_scan, if_neg (h c rfl)]

theorem slash_not_mem_blanks : '/' ∉ blanks := by decide

theorem takes_blockComment {s : List Char} (hs : ¬ ['*', '/'] <:+: s) (t : List Char) :
    Takes find lines blockComment ('/' :: '*' :: (s ++ '*' :: '/' :: t)) t (fun _ => True) := by
  have hopen : Takes find lines (terminal .commentOpen) ('/' :: '*' :: (s ++ '*' :: '/' :: t))
      (s ++ '*' :: '/' :: t) _ := Takes.literal _ _
  have htext : Takes find lines (.pattern commentTextPattern) (s ++ '*' :: '/' :: t)
      ('*' :: '/' :: t) _ := Takes.pattern (congrArg some (beforeClose_append hs t))
  have hclose : Takes find lines (terminal .commentClose) ('*' :: '/' :: t) t _ :=
    Takes.literal _ _
  exact Takes.imp (hopen.row_cons (htext.row_cons (hclose.row_cons .nil))) fun _ _ => trivial

/-- Each unit of the language is taken, whatever follows. -/
theorem takes_gapUnit {u : List Char} (hu : u ∈ unitText) (t : List Char) :
    Takes find lines gapUnit (u ++ t) t (fun _ => True) := by
  rcases mem_unitText hu with ⟨c, hc, rfl⟩ | ⟨s, hs, rfl⟩ | ⟨s, hs, rfl⟩
  · refine Takes.choice_head ((Takes.pattern ?_).imp fun _ _ => trivial)
    rw [List.singleton_append, blank_scan, if_pos hc]
    rfl
  · refine Takes.choice_tail (refuses_blank ?_)
      (Takes.choice_head ((Takes.pattern ?_).imp fun _ _ => trivial))
    · intro c hc
      cases hc
      exact slash_not_mem_blanks
    · show some (lineLength (s ++ ['\n'] ++ t) + 2) = _
      rw [List.append_assoc, List.singleton_append, lineLength_append hs]
      simp only [List.length_cons, List.length_append, List.length_nil]
  · refine Takes.choice_tail (refuses_blank ?_) (Takes.choice_tail (.pattern rfl)
      (Takes.choice_head ?_))
    · intro c hc
      cases hc
      exact slash_not_mem_blanks
    · simpa only [List.cons_append, List.append_assoc, List.nil_append]
        using takes_blockComment hs t

/-- A comment without its line feed is taken up to the end of the input. -/
theorem takes_openComment {t : List Char} (ht : t ∈ openCommentText) :
    Takes find lines gapUnit t [] (fun _ => True) := by
  obtain ⟨s, hs, rfl⟩ := ht
  refine Takes.choice_tail (refuses_blank ?_) (Takes.choice_head ?_)
  · intro c hc
    cases hc
    exact slash_not_mem_blanks
  · have hscan : lineCommentPattern.scan ('/' :: '/' :: s ++ [])
        = some ('/' :: '/' :: s).length := by
      show some (lineLength (s ++ []) + 2) = _
      rw [List.append_nil, lineLength_eq_length hs]
      rfl
    have htake : Takes find lines lineComment ('/' :: '/' :: s ++ []) [] _ := Takes.pattern hscan
    rw [List.append_nil] at htake
    exact htake.imp fun _ _ => trivial

/-- No unit begins in front of a solid text. -/
theorem refuses_gapUnit {t : List Char} (ht : Solid t) : Refuses find lines gapUnit t := by
  have hblank : Refuses find lines blank t := refuses_blank fun c hc => (ht c hc).1
  have hline : Refuses find lines lineComment t := by
    refine .pattern ?_
    show scanLineComment t = none
    unfold scanLineComment
    split
    · exact absurd rfl (ht '/' rfl).2
    · rfl
  have hblock : Refuses find lines blockComment t := by
    refine .row_head (.literal ?_)
    rintro ⟨r, rfl⟩
    exact (ht '/' rfl).2 rfl
  refine .choice fun e he => ?_
  simp only [List.mem_cons, List.not_mem_nil, or_false] at he
  rcases he with rfl | rfl | rfl
  · exact hblank
  · exact hline
  · exact hblock

end Unit

/-! ### Gaps -/

section Gap

variable {lines : LineIndex} {text rest : List Char}

theorem find_gapRule : rules.find "_" = some gapRule.body := rfl

/-- A unit, as a rule of its own. -/
theorem unit_ensures : Ensures rules.find lines (.ref "_")
    (fun c stop _ => (∃ u ∈ unitText, c.rest = u ++ stop.rest) ∨
      c.rest ∈ openCommentText ∧ stop.rest = []) := by
  refine .ref find_gapRule ((gapUnit_ensures.row_cons .nil).action fun c stop xs h => ?_)
  obtain ⟨mid, x, xs', h, ⟨rfl, -⟩, rfl⟩ := h
  exact ⟨.absent, rfl, h⟩

theorem takes_unit {mid : List Char} (h : Takes rules.find lines gapUnit text mid (fun _ => True)) :
    Takes rules.find lines (.ref "_") text mid (fun _ => True) :=
  .ref find_gapRule ((h.row_cons .nil).action fun _ _ _ => ⟨.absent, rfl, trivial⟩)

theorem refuses_unit (h : Solid text) : Refuses rules.find lines (.ref "_") text :=
  .ref find_gapRule (refuses_gapUnit h).row_head.action

/-- The units that are taken make up a gap; where something is left, there is one at least if there
was a round. -/
theorem units_ensures : Ensures rules.find lines gap
    (fun c stop v => Reads gapText c.rest stop.rest ∧
      (v ≠ .list [] → stop.rest ≠ [] → Reads gap1Text c.rest stop.rest)) := by
  refine unit_ensures.many (fun c => ?_) fun c mid stop v vs hunit hrest => ?_
  · exact ⟨(Reads.one c.rest).mono one_le_kstar, fun hne => absurd rfl hne⟩
  · obtain ⟨hgap, -⟩ := hrest
    rcases hunit with ⟨u, hu, hc⟩ | ⟨hopen, hmid⟩
    · have hread : Reads gap1Text c.rest stop.rest := by
        rw [hc]
        exact (Reads.of_mem hu mid.rest).mul hgap
      exact ⟨hread.mono mul_kstar_le_kstar, fun _ _ => hread⟩
    · rw [hmid] at hgap
      have hstop := hgap.of_nil
      refine ⟨⟨[], Language.nil_mem_kstar _, c.rest, rfl, .inr ⟨hopen, hstop⟩⟩, ?_⟩
      exact fun _ hne => absurd hstop hne

theorem gap_ensures : Ensures rules.find lines gap
    (fun c stop _ => Reads gapText c.rest stop.rest) :=
  units_ensures.imp fun _ _ _ _ h => h.1

/-- At the very end an open comment may be all that is taken. -/
theorem gap1_ensures : Ensures rules.find lines gap1
    (fun c stop _ => stop.rest ≠ [] → Reads gap1Text c.rest stop.rest) :=
  units_ensures.many1.imp fun _ _ _ _ h => h.1.2 h.2

theorem unitText_ne_nil {u : List Char} (hu : u ∈ unitText) : u ≠ [] := by
  rcases mem_unitText hu with ⟨c, -, rfl⟩ | ⟨s, -, rfl⟩ | ⟨s, -, rfl⟩ <;> exact List.cons_ne_nil _ _

theorem length_lt_append {u : List Char} (hu : u ≠ []) (t : List Char) :
    t.length < (u ++ t).length := by
  have hpos := List.length_pos_iff.mpr hu
  rw [List.length_append]
  omega

/-- A gap is taken to its end, with an open comment behind it. -/
theorem takes_gap (h : Reads gapText text rest) (hrest : Solid rest) :
    Takes rules.find lines gap text rest (fun _ => True) := by
  obtain ⟨g, hg, tail, rfl, hl⟩ := h
  obtain ⟨units, rfl, hunits⟩ := Language.mem_kstar.mp hg
  clear hg
  have hstop : Takes rules.find lines gap rest rest (fun _ => True) :=
    (Takes.many_nil (refuses_unit hrest)).imp fun _ _ => trivial
  induction units with
  | nil =>
    rcases hl with rfl | ⟨hopen, rfl⟩
    · exact hstop
    · have hlt : 0 < tail.length :=
        List.length_pos_iff.mpr fun h0 => nil_not_mem_openCommentText (h0 ▸ hopen)
      exact ((takes_unit (takes_openComment hopen)).many_cons hlt hstop).imp fun _ _ => trivial
  | cons u units ih =>
    have hu := hunits u List.mem_cons_self
    have htail := ih fun u' hu' => hunits u' (List.mem_cons_of_mem _ hu')
    have hlt := length_lt_append (unitText_ne_nil hu) (units.flatten ++ tail)
    rw [List.flatten_cons, List.append_assoc]
    exact ((takes_unit (takes_gapUnit hu _)).many_cons hlt htail).imp fun _ _ => trivial

theorem takes_gap1 (h : Reads gap1Text text rest) (hrest : Solid rest) :
    Takes rules.find lines gap1 text rest (fun _ => True) := by
  obtain ⟨u, hu, t, rfl, hgap⟩ := h.uncons
  have hlt := length_lt_append (unitText_ne_nil hu) t
  have hunit : Takes rules.find lines (.ref "_") (u ++ t) t _ := takes_unit (takes_gapUnit hu t)
  refine ((hunit.many_cons hlt (takes_gap hgap hrest)).many1 ?_).imp fun _ _ => trivial
  rintro v ⟨x, xs, -, -, rfl⟩
  exact nofun

end Gap

end MessageIdl.Schema
