import MessageIdl.Proofs.Peg.Cutting
import MessageIdl.Proofs.Schema.Joining
import MessageIdl.Proofs.Schema.OpenTexts

/-!
# Block comments that are not closed

A text that is cut off inside a block comment is read up to the cut, whatever surrounds the comment, and
then the closing mark of the comment is all that is missing.

* `Ground`, `rules_ground`: what the rules come down to, with the units of gaps taken as a whole.
* `misses_inside`, `misses_unit_cases`: how a comment that is not closed is missed.
* `Ground.misses_cases`, `exists_ground`: the failures of the rule of files.
* `Ground.agreesInside`: outcomes on a text that ends inside a comment.
* `misses_close`, `label_eq_close`: the closing mark is missed at the cut, and nothing else is.
* `rejected_open`, `exists_open`: parse errors for comments that are not closed.
* `CommentInGap`, `unterminated_comments`: texts that are cut off inside a comment in a gap.
-/

namespace MessageIdl.Schema

open MessageIdl.Peg MessageIdl.Source
open scoped Computability

variable {lines lines' : LineIndex}

/-! ### What the rules come down to -/

/-- The terminals of the rules other than that of gaps, and a unit of a gap as a whole.  No terminal
takes a slash. -/
inductive Ground : Expr Node → Prop where
  | literal {text : String} : '/' ∉ text.toList → Ground (.literal text)
  | name : Ground name
  | number : Ground number
  | endOfInput : Ground .endOfInput
  | unit : Ground (.ref "_")

theorem Ground.terminal {l : Lexeme} (h : '/' ∉ l.text.toList) : Ground (terminal l) := .literal h

theorem builtFrom_fieldType : fieldTypeRule.body.BuiltFrom Ground := by
  have hkeywords : ∀ k : Scalar, '/' ∉ k.keyword.toList := by
    intro k
    cases k <;> decide
  intro x hx
  have hx : x ∈ Scalar.all.map (fun k => Expr.literal k.keyword) ++ [name] := hx
  rcases List.mem_append.mp hx with hx | hx
  · obtain ⟨k, -, rfl⟩ := List.mem_map.mp hx
    exact .literal (hkeywords k)
  · rw [List.mem_singleton.mp hx]
    exact .name

/-- **No rule but that of gaps takes a slash**, rule by rule. -/
theorem rules_ground : RulesFrom rules.find Ground := by
  have hlisted {body : Expr Node} (xs : List (Expr Node)) (hxs : body.terminals = xs)
      (h : ∀ x ∈ xs, Ground x) : body.BuiltFrom Ground := fun x hx => h x (hxs ▸ hx)
  have hblock {keyword : Lexeme} (h : '/' ∉ keyword.text.toList) :
      ∀ x ∈ [terminal keyword, name, terminal .openBrace, terminal .closeBrace], Ground x := by
    simp only [List.forall_mem_cons]
    exact ⟨.terminal h, .name, .terminal (by decide), .terminal (by decide), nofun⟩
  have hnumbered :
      ∀ x ∈ [name, terminal .equals, number, terminal .semicolon], Ground x := by
    simp only [List.forall_mem_cons]
    exact ⟨.name, .terminal (by decide), .number, .terminal (by decide), nofun⟩
  intro name body hf
  obtain ⟨r, hr, rfl, rfl⟩ := exists_rule hf
  simp only [grammar, List.mem_cons, List.not_mem_nil, or_false] at hr
  rcases hr with rfl | rfl | rfl | rfl | rfl | rfl | rfl | rfl | rfl | rfl
  · exact .inl ⟨.unit, rfl⟩
  · exact .inr (hlisted [terminal .repeated] rfl (List.forall_mem_singleton.mpr (.terminal (by decide))))
  · exact .inr builtFrom_fieldType
  · exact .inr (hlisted _ rfl hnumbered)
  · exact .inr (hlisted _ rfl hnumbered)
  · exact .inr (hlisted _ rfl (hblock (by decide)))
  · exact .inr (hlisted [] rfl nofun)
  · exact .inr (hlisted _ rfl (hblock (by decide)))
  · exact .inr (hlisted [] rfl nofun)
  · exact .inr (hlisted [.endOfInput] rfl (List.forall_mem_singleton.mpr .endOfInput))

theorem unit_value : Ensures rules.find lines (.ref "_") (fun _ _ v => v = .absent) :=
  .ref find_gapRule ((gapUnit_ensures.row_cons .nil).action fun _ _ _ _ => ⟨.absent, rfl, rfl⟩)

/-- What is taken has slashes in comments only. -/
theorem Ground.keeps {x : Expr Node} (h : Ground x) : Keeps rules.find (Reads frontText) x := by
  intro lines c stop v hy
  cases h with
  | @literal text htext =>
    obtain ⟨hc, -⟩ := (Ensures.literal text).matched hy
    rw [hc]
    exact .of_mem (mem_frontText_of_slash htext) _
  | name =>
    obtain ⟨s, -, hs, hc⟩ := name_ensures.matched hy
    have hslash : '/' ∉ s.toList := fun hmem => absurd (isNamePart_of_mem hs '/' hmem) (by decide)
    rw [hc]
    exact .of_mem (mem_frontText_of_slash hslash) _
  | number =>
    obtain ⟨d, hd, hc⟩ := digits_ensures.matched hy
    have hslash : '/' ∉ d := fun hmem => absurd (hd.2 '/' hmem) (by decide)
    rw [hc]
    exact .of_mem (mem_frontText_of_slash hslash) _
  | endOfInput =>
    obtain ⟨-, rfl, -⟩ := Ensures.endOfInput.matched hy
    exact .front_refl _
  | unit =>
    rcases unit_ensures.matched hy with ⟨u, hu, hc⟩ | ⟨hcomment, hstop⟩
    · rw [hc]
      exact .of_mem ((le_kstar : unitText + bareText ≤ frontText) (.inl hu)) _
    · exact ⟨[], Language.nil_mem_kstar _, c.rest, rfl, .inr ⟨hcomment, hstop⟩⟩

/-- So it is in all that is read with such expressions. -/
theorem reads_front {e : Expr Node} (he : e.BuiltFrom Ground) {c stop : Cursor} {v : Value Node}
    (hy : Yields rules.find lines e c (.matched stop v)) : Reads frontText c.rest stop.rest :=
  hy.kept rules_ground (fun _ => Ground.keeps) Reads.front_refl Reads.front_trans he

/-! ### Failures of units -/

/-- Where there is a closing mark, the text of a comment ends in front of one. -/
theorem prefix_drop_beforeClose {t : List Char} (h : ['*', '/'] <:+: t) :
    ['*', '/'] <+: t.drop (beforeClose t) := by
  induction t with
  | nil => simp at h
  | cons c t ih =>
    rw [beforeClose]
    split
    · rename_i hclose
      obtain ⟨rfl, hhead⟩ := hclose
      obtain ⟨r, rfl⟩ := List.head?_eq_some_iff.mp hhead
      exact ⟨r, rfl⟩
    · rename_i hopen
      rcases List.infix_cons_iff.mp h with hfront | htail
      · obtain ⟨r, hr⟩ := hfront
        cases hr
        exact absurd ⟨rfl, rfl⟩ hopen
      · exact ih htail

/-- Where there is none, all of the text is that of the comment. -/
theorem beforeClose_eq_length {t : List Char} (h : ¬ ['*', '/'] <:+: t) :
    beforeClose t = t.length := by
  induction t with
  | nil => rfl
  | cons c t ih =>
    rw [List.infix_cons_iff, not_or] at h
    have hopen : ¬ (c = '*' ∧ t.head? = some '/') := by
      rintro ⟨rfl, hhead⟩
      obtain ⟨r, rfl⟩ := List.head?_eq_some_iff.mp hhead
      exact h.1 ⟨r, rfl⟩
    rw [beforeClose, if_neg hopen, ih h.2, List.length_cons]

/-- A comment that is not closed is missed at the end of the text. -/
theorem misses_inside {c : Cursor} (h : c.rest ∈ insideText) :
    Misses rules.find lines (.ref "_") c (c.offset + c.rest.length) commentCloseLabel := by
  obtain ⟨b, hb, hc⟩ := h
  have hbehind : (c.advance 2).rest = b := by
    rw [Cursor.advance_rest, hc]
    rfl
  have hscan : commentTextPattern.scan (c.advance 2).rest = some b.length := by
    rw [hbehind]
    exact congrArg some (beforeClose_eq_length hb)
  have hend : ((c.advance 2).advance b.length).rest = [] := by
    rw [Cursor.advance_rest, hbehind, List.drop_length]
  have hopen : Yields rules.find lines (terminal .commentOpen) c (.matched (c.advance 2) _) :=
    .literal ⟨b, hc.symm⟩
  have hclose : Misses rules.find lines (terminal .commentClose)
      ((c.advance 2).advance b.length) _ commentCloseLabel := .literal (by rw [hend]; decide)
  have hblank : Refuses rules.find lines blank c.rest := refuses_blank fun d hd => by
    rw [hc] at hd
    cases hd
    exact slash_not_mem_blanks
  have hline : Yields rules.find lines lineComment c .failed := .pattern_failed (by rw [hc]; rfl)
  have hunit : Misses rules.find lines gapUnit c _ commentCloseLabel :=
    .choice_next (hblank c rfl) (.choice_next hline
      (.choice_head (.seq_tail hopen (.seq_tail (.pattern hscan) (.seq_head hclose)))))
  have hlength : c.rest.length = 2 + b.length := by
    rw [hc, List.length_cons, List.length_cons]
    omega
  rw [hlength, ← Nat.add_assoc]
  exact .ref find_gapRule (.action (.seq_head hunit))

/-- **How a unit fails**: where it begins, with another label, or at the end of the text, as a comment that
is not closed. -/
theorem misses_unit_cases {c : Cursor} {pos : Nat} {label : String}
    (hm : Misses rules.find lines (.ref "_") c pos label) :
    pos = c.offset ∧ label ≠ commentCloseLabel ∨
      c.rest ∈ insideText ∧ pos = c.offset + c.rest.length ∧ label = commentCloseLabel := by
  rcases misses_unit hm with hm | ⟨b, hc, hclose, hpos, hlabel⟩
  · exact .inl hm
  · have hb := mt prefix_drop_beforeClose hclose
    have hlength : pos = c.offset + c.rest.length := by
      rw [hpos, beforeClose_eq_length hb, hc, List.length_cons, List.length_cons]
      omega
    exact .inr ⟨⟨b, hb, hc⟩, hlength, hlabel⟩

theorem literalLabel_ne_close {text : String} (h : '/' ∉ text.toList) :
    literalLabel text ≠ commentCloseLabel := by
  intro heq
  have hslash : '/' ∈ (literalLabel text).toList := by
    rw [heq]
    decide
  rw [literalLabel, String.toList_append, String.toList_append] at hslash
  simp [h] at hslash

/-- All other failures of the rules happen where a terminal is tried, and have other labels. -/
theorem Ground.misses_cases {x : Expr Node} (h : Ground x) {c : Cursor} {pos : Nat} {label : String}
    (hm : Misses rules.find lines x c pos label) : pos = c.offset ∧ label ≠ commentCloseLabel ∨
      c.rest ∈ insideText ∧ pos = c.offset + c.rest.length ∧ label = commentCloseLabel := by
  cases h with
  | literal htext =>
    cases hm
    exact .inl ⟨rfl, literalLabel_ne_close htext⟩
  | name =>
    cases hm
    exact .inl ⟨rfl, by decide⟩
  | number =>
    cases hm
    exact .inl ⟨rfl, by decide⟩
  | endOfInput =>
    cases hm
    exact .inl ⟨rfl, by decide⟩
  | unit => exact misses_unit_cases hm

/-- A failure of the rule of files is one of these. -/
theorem exists_ground {c : Cursor} {pos : Nat} {label : String}
    (hm : Misses rules.find lines (.ref "ProtocolFile") c pos label) :
    ∃ x c', Ground x ∧ c.Reaches c' ∧ Reads frontText c.rest c'.rest ∧
      Misses rules.find lines x c' pos label :=
  hm.exists_part rules_ground (fun _ => Ground.keeps) Reads.front_refl Reads.front_trans (.ref _)

/-! ### Outcomes on a text that ends inside a comment -/

/-- A word without a slash stands at the front of a text if it stands at the front of what is left of it
when it is cut off inside a comment. -/
theorem word_agrees {w s t : List Char} (hw : '/' ∉ w) (ht : t <+: s) (hopen : t ∈ openText) :
    w <+: s ↔ w <+: t := by
  refine ⟨fun h => ?_, fun h => h.trans ht⟩
  refine (List.prefix_or_prefix_of_prefix h ht).resolve_right fun htw => ?_
  exact hw (htw.subset (slash_mem_of_openText hopen))

/-- A run of characters other than slashes ends in front of the cut. -/
theorem leading_agrees {p : Char → Bool} (hp : p '/' = false) {s t : List Char} (ht : t <+: s)
    (hslash : '/' ∈ t) : Pattern.leading p s = Pattern.leading p t := by
  obtain ⟨z, rfl⟩ := ht
  have hends : (t.takeWhile p).length ≠ t.length := by
    intro hlength
    have hall := List.takeWhile_eq_self_iff.mp ((List.takeWhile_prefix p).eq_of_length hlength)
    rw [hall '/' hslash] at hp
    cases hp
  rw [Pattern.leading, List.takeWhile_append, if_neg hends, Pattern.leading]

theorem name_scan_agrees {s t : List Char} (ht : t <+: s) (hslash : '/' ∈ t) :
    namePattern.scan s = namePattern.scan t := by
  obtain ⟨z, rfl⟩ := ht
  cases t with
  | nil => cases hslash
  | cons c t =>
    show scanName (c :: (t ++ z)) = scanName (c :: t)
    rw [scanName, scanName]
    split
    · rename_i hstart
      have hbehind : '/' ∈ t := (List.mem_cons.mp hslash).resolve_left fun h => by
        rw [← h] at hstart
        cases hstart
      rw [leading_agrees (by decide) (List.prefix_append t z) hbehind]
    · rfl

theorem number_scan_agrees {s t : List Char} (ht : t <+: s) (hslash : '/' ∈ t) :
    numberPattern.scan s = numberPattern.scan t := by
  have hleading := leading_agrees (show Char.isDigit '/' = false by decide) ht hslash
  show (if Pattern.leading Char.isDigit s < 1 then none else some (Pattern.leading Char.isDigit s)) = _
  rw [hleading]
  rfl

/-- What an expression does on a text is what it does on the front of the text that ends inside a
comment, unless it fails there for want of a closing mark. -/
abbrev AgreesInside (x : Expr Node) : Prop :=
  Agrees rules.find anyNode (· ∈ openText) commentCloseLabel x

theorem agreesInside_literal {text : String} (h : '/' ∉ text.toList) :
    AgreesInside (.literal text) := by
  intro lines lines' c c' o hy hc hopen
  have hiff := word_agrees h hc.rest hopen
  cases hy with
  | literal hp => exact .inr ⟨_, .literal (hiff.mp hp), .matched (hc.advance _) rfl⟩
  | literal_failed hp => exact .inr ⟨_, .literal_failed (mt hiff.mpr hp), .failed⟩

theorem agreesInside_pattern {p : Pattern}
    (h : ∀ {s t : List Char}, t <+: s → '/' ∈ t → p.scan s = p.scan t) :
    AgreesInside (.pattern p) := by
  intro lines lines' c c' o hy hc hopen
  have hscan := h hc.rest (slash_mem_of_openText hopen)
  cases hy with
  | @pattern _ _ n hs =>
    have hs' := hscan ▸ hs
    have htake : c.rest.take n = c'.rest.take n := by
      obtain ⟨z, hz⟩ := hc.rest
      rw [← hz, List.take_append_of_le_length (p.scan_le _ _ hs')]
    exact .inr ⟨_, .pattern hs', .matched (hc.advance n) (by rw [htake])⟩
  | pattern_failed hs => exact .inr ⟨_, .pattern_failed (hscan ▸ hs), .failed⟩

theorem agreesInside_endOfInput : AgreesInside .endOfInput := by
  intro lines lines' c c' o hy hc hopen
  have hne : c'.rest ≠ [] := fun h => nil_not_mem_openText (h ▸ hopen)
  cases hy with
  | endOfInput hend => exact absurd (List.prefix_nil.mp (hend ▸ hc.rest)) hne
  | endOfInput_failed => exact .inr ⟨_, .endOfInput_failed hne, .failed⟩

theorem yields_unit {c : Cursor} {u t : List Char} (hu : u ∈ unitText) (hc : c.rest = u ++ t) :
    Yields rules.find lines (.ref "_") c (.matched (c.advance u.length) .absent) := by
  have htake : Takes rules.find lines (.ref "_") (u ++ t) t _ := takes_unit (takes_gapUnit hu t)
  obtain ⟨stop, v, hy, hstop, -⟩ := htake c hc
  have hadvance := hy.reaches.eq_advance (u := u) (by rw [hstop, hc])
  have hvalue := unit_value.matched hy
  rwa [hadvance, hvalue] at hy

/-- At the front of the text there is the comment that is not closed, or a unit that lies in front of it,
or none. -/
theorem agreesInside_unit : AgreesInside (.ref "_") := by
  intro lines lines' c c' o hy hc hopen
  obtain ⟨z, hz⟩ := hc.rest
  rcases openText_cases hopen with hinside | ⟨p, hp, r, -, hrest⟩
  · exact .inl (misses_inside hinside)
  · rw [hrest, List.append_assoc] at hz
    by_cases hunit : p ∈ unitText
    · cases hy.deterministic (yields_unit hunit hz.symm)
      exact .inr ⟨_, yields_unit hunit hrest, .matched (hc.advance p.length) rfl⟩
    · obtain ⟨d, hd, rfl⟩ := hp.resolve_left hunit
      have hblank : d ∉ blanks := fun h => hunit (blank_mem_unitText h)
      have hsolid (t : List Char) : Solid ([d] ++ t) := solid_cons ⟨hblank, hd⟩
      cases hy.deterministic (refuses_unit (hsolid (r ++ z)) c hz.symm)
      exact .inr ⟨_, refuses_unit (hsolid r) c' hrest, .failed⟩

theorem Ground.agreesInside {x : Expr Node} (h : Ground x) : AgreesInside x := by
  cases h with
  | literal htext => exact agreesInside_literal htext
  | name => exact agreesInside_pattern name_scan_agrees
  | number => exact agreesInside_pattern number_scan_agrees
  | endOfInput => exact agreesInside_endOfInput
  | unit => exact agreesInside_unit

/-! ### Files that are cut off inside a comment -/

section Cut

variable {text : List Char}

/-- The rule of files does not match a text that ends inside a comment. -/
theorem not_matched_open (hopen : text ∈ openText) (stop : Cursor) (v : Value Node) :
    ¬ Yields rules.find lines (.ref "ProtocolFile") ⟨0, text⟩ (.matched stop v) := by
  intro hy
  obtain ⟨f, -, -, hstop, -⟩ := file_ensures.matched hy
  have hrest := (reads_front (.ref _) hy).openText hopen
  rw [hstop] at hrest
  exact nil_not_mem_openText hrest

/-- **The closing mark is missed at the cut**, if the text in front of the cut can be completed. -/
theorem misses_close (hopen : text ∈ openText) {z : List Char} {stop : Cursor} {v : Value Node}
    (hy : Yields rules.find lines (.ref "ProtocolFile") ⟨0, text ++ z⟩ (.matched stop v)) :
    Misses rules.find lines' (.ref "ProtocolFile") ⟨0, text⟩ text.length commentCloseLabel := by
  have hcut : (⟨0, text ++ z⟩ : Cursor).CutTo ⟨0, text⟩ := ⟨rfl, List.prefix_append text z⟩
  have hkeeps (x : Expr Node) (hx : Ground x) :
      Keeps rules.find (fun s t => s ∈ openText → t ∈ openText) x :=
    fun _ _ _ _ h => (hx.keeps _ _ _ _ h).openText
  rcases hy.cut rules_ground hkeeps (fun _ _ => rules_steady) (fun _ => Ground.agreesInside) lines'
    (.ref _) (.ref _) hcut hopen with hm | ⟨o', hy', ho⟩
  · rwa [Nat.zero_add] at hm
  · cases ho
    exact absurd hy' (not_matched_open hopen _ _)

/-- **Nothing else is missed at the cut.** -/
theorem label_eq_close (hopen : text ∈ openText) {pos : Nat} {label : String}
    (hm : Misses rules.find lines (.ref "ProtocolFile") ⟨0, text⟩ pos label)
    (hpos : pos = text.length) : label = commentCloseLabel := by
  obtain ⟨x, c, hx, hr, hread, hm⟩ := exists_ground hm
  have hne : c.rest ≠ [] := ne_of_mem_of_not_mem (hread.openText hopen) nil_not_mem_openText
  have hleft := List.length_pos_iff.mpr hne
  have hsum := hr.offset_add_length
  rcases hx.misses_cases hm with ⟨hoffset, -⟩ | ⟨-, -, hlabel⟩
  · simp only [Nat.zero_add] at hsum
    omega
  · exact hlabel

end Cut

/-! ### Parse errors -/

/-- The wording for a comment that is not closed. -/
def unterminated : String := "unterminated block comment"

theorem explain_text_iff (w : Watch) (lines : LineIndex) (text : List Char) :
    (w.explain lines text).text = unterminated ↔
      commentCloseLabel ∈ w.expected ∧ lines.size ≤ w.furthest := by
  -- the wordings differ in their third character
  have hother (s : String) : "unexpected " ++ s ≠ unterminated := by
    intro h
    have hfront := congrArg (fun s : String => s.toList.take 3) h
    rw [String.toList_append, List.take_append_of_le_length (by decide)] at hfront
    exact absurd hfront (by decide)
  rw [← List.contains_iff_mem, Watch.explain]
  split
  · rename_i hopen
    exact iff_of_true rfl hopen
  · rename_i hclosed
    exact iff_of_false (hother _) hclosed

/-- **A text that is cut off inside a comment** is rejected for the comment, at its end. -/
theorem rejected_open {src : String} (hopen : src.toList ∈ openText) {z : List Char} {stop : Cursor}
    {v : Value Node}
    (hy : Yields rules.find lines (.ref "ProtocolFile") ⟨0, src.toList ++ z⟩ (.matched stop v))
    (file : String) : ∃ err, parse file src = .error (.rejected err) ∧ err.text = unterminated ∧
      err.span.start.offset = src.length ∧ err.expected = [commentCloseLabel] := by
  rcases parse_outcome file src with ⟨stop', f, -, hy'⟩ | ⟨⟨err, herr⟩, -⟩
  · exact absurd hy' (not_matched_open hopen _ _)
  · obtain ⟨w, failures, hw, hall, rfl⟩ := Parser.exists_reports (rules_rejected herr)
    have hclose : (src.toList.length, commentCloseLabel) ∈ failures :=
      (hall _ _).mpr (failure_iff.mpr (misses_close hopen hy))
    have hle := Parser.furthest_le_length hw hall
    have hfurthest : w.furthest = src.toList.length := Nat.le_antisymm hle (hw.furthest _ hclose)
    have hexpected : w.expected = [commentCloseLabel] := by
      refine hw.sorted.eq_of_mem_iff (List.pairwise_singleton _ _) fun label => ?_
      rw [hw.expected, hfurthest, List.mem_singleton]
      refine ⟨fun hmem => label_eq_close hopen (failure_iff.mp ((hall _ _).mp hmem)) rfl, ?_⟩
      rintro rfl
      exact hclose
    refine ⟨_, herr, (explain_text_iff ..).mpr ⟨?_, hfurthest.ge⟩, ?_, ?_⟩
    · rw [hexpected]
      exact List.mem_singleton_self _
    · rw [Watch.explain_start file hle, hfurthest, String.length_toList]
    · rw [Watch.explain_expected, hexpected]

/-- **Only for a comment that is not closed** is a text rejected with this wording, and at its end. -/
theorem exists_open {file src : String} {err : ParseError}
    (h : parse file src = .error (.rejected err)) (htext : err.text = unterminated) :
    err.span.start.offset = src.length ∧
      ∃ x y, src.toList = x ++ '/' :: '*' :: y ∧ ¬ ['*', '/'] <:+: y := by
  obtain ⟨w, failures, hw, hall, rfl⟩ := Parser.exists_reports (rules_rejected h)
  obtain ⟨hclose, -⟩ := (explain_text_iff ..).mp htext
  have hfailure := failure_iff.mp ((hall _ _).mp ((hw.expected _).mp hclose))
  obtain ⟨x, c, hx, hr, -, hm⟩ := exists_ground hfailure
  rcases hx.misses_cases hm with ⟨-, hother⟩ | ⟨⟨y, hy, hc⟩, hpos, -⟩
  · exact absurd rfl hother
  · refine ⟨?_, ?_⟩
    · have hsum := hr.offset_add_length
      rw [Watch.explain_start file (Parser.furthest_le_length hw hall), hpos, hsum, Nat.zero_add,
        String.length_toList]
    · obtain ⟨n, -, rfl⟩ := hr
      rw [Cursor.advance_rest] at hc
      exact ⟨src.toList.take n, y, by rw [← hc, List.take_append_drop], hy⟩

/-! ### Comments in gaps -/

/-- A block comment with the text `b` stands in a gap of `src`, behind `x` and in front of `y`: a unit of
a gap is tried there on the way of the rule of files. -/
structure CommentInGap (file src : String) (x b y : List Char) : Prop where
  text : src.toList = x ++ '/' :: '*' :: (b ++ '*' :: '/' :: y)
  body : ¬ ['*', '/'] <:+: b
  tried : Tries rules.find (LineIndex.ofText file src.toList) (.ref "ProtocolFile") ⟨0, src.toList⟩
    (.ref "_") ⟨x.length, '/' :: '*' :: (b ++ '*' :: '/' :: y)⟩

variable {file src : String} {x b y : List Char}

/-- All slashes in front of the comment belong to comments. -/
theorem CommentInGap.front (h : CommentInGap file src x b y) : x ∈ frontText := by
  have href : (Expr.ref (α := Node) "_").refs ≠ [] := List.cons_ne_nil _ _
  obtain ⟨x', hx, tail, hsrc, hl⟩ := h.tried.kept rules_ground (fun _ => Ground.keeps)
    Reads.front_refl Reads.front_trans (.ref _) href
  rcases hl with rfl | ⟨-, hnil⟩
  · rwa [List.append_cancel_right (h.text.symm.trans hsrc)]
  · cases hnil

/-- A star in front of the cut does not close a comment. -/
theorem not_infix_concat_star (h : ¬ ['*', '/'] <:+: b) : ¬ ['*', '/'] <:+: b ++ ['*'] := by
  rw [List.infix_concat_iff, not_or]
  refine ⟨?_, h⟩
  rintro ⟨s, hs⟩
  have hlast := congrArg List.getLast? hs
  simp at hlast

/-- A text that is cut off between the opening mark of the comment and the end of its closing mark. -/
theorem CommentInGap.take_mem (h : CommentInGap file src x b y) {k : Nat} (hopened : x.length + 2 ≤ k)
    (hclosed : k < x.length + b.length + 4) : src.toList.take k ∈ openText := by
  obtain ⟨j, rfl⟩ := Nat.exists_eq_add_of_le hopened
  have hwithin : j ≤ (b ++ ['*']).length := by
    rw [List.length_append, List.length_singleton]
    omega
  have htake : src.toList.take (x.length + 2 + j) = x ++ '/' :: '*' :: (b ++ ['*']).take j := by
    rw [h.text, Nat.add_assoc, List.take_length_add_append, Nat.add_comm 2 j, List.take_succ_cons,
      List.take_succ_cons, List.append_cons b, List.take_append_of_le_length hwithin]
  rw [htake]
  refine mem_openText h.front fun hinfix => not_infix_concat_star h.body ?_
  exact hinfix.trans (List.take_prefix j _).isInfix

/-- **Block comments that are not closed are reported as such, and only they are.**  A text that is
parsed and then cut off anywhere behind the opening mark of a comment in a gap, and in front of the end of
its closing mark, is rejected for the comment, at its end, where the closing mark is all that is expected.
Each text that is rejected for a comment is so at its end, and has an opening mark with no closing mark
behind it. -/
theorem unterminated_comments :
    (∀ file src f x b y, parse file src = .ok f → CommentInGap file src x b y →
      ∀ file' k, x.length + 2 ≤ k → k < x.length + b.length + 4 →
        ∃ err, parse file' (String.ofList (src.toList.take k)) = .error (.rejected err) ∧
          err.text = "unterminated block comment" ∧ err.span.start.offset = k ∧
          err.expected = ["\"*/\""]) ∧
    ∀ file src err, parse file src = .error (.rejected err) → err.text = "unterminated block comment" →
      err.span.start.offset = src.length ∧
        ∃ x y, src.toList = x ++ '/' :: '*' :: y ∧ ¬ ['*', '/'] <:+: y := by
  refine ⟨fun file src f x b y hf h file' k hopened hclosed => ?_, fun _ _ _ => exists_open⟩
  obtain ⟨stop, hy⟩ : ∃ stop, Yields rules.find (LineIndex.ofText file src.toList) (.ref "ProtocolFile")
      ⟨0, src.toList⟩ (.matched stop (.node (.file f))) := by
    rcases parse_outcome file src with ⟨stop, f', hf', hy⟩ | ⟨⟨e, he⟩, -⟩
    · cases hf.symm.trans hf'
      exact ⟨stop, hy⟩
    · cases hf.symm.trans he
  have hle : k ≤ src.toList.length := by
    rw [h.text]
    simp only [List.length_append, List.length_cons]
    omega
  have hcut : (String.ofList (src.toList.take k)).toList = src.toList.take k := String.toList_ofList
  have hlength : (String.ofList (src.toList.take k)).length = k := by
    rw [← String.length_toList, hcut, List.length_take_of_le hle]
  have hopen : (String.ofList (src.toList.take k)).toList ∈ openText := by
    rw [hcut]
    exact h.take_mem hopened hclosed
  rw [← List.take_append_drop k src.toList, ← hcut] at hy
  obtain ⟨err, herr, htext, hstart, hexpected⟩ := rejected_open hopen hy file'
  exact ⟨err, herr, htext, hstart.trans hlength, hexpected⟩

/-- A comment in front of a message. -/
theorem exists_parse_front : ∃ f, parse memoryName "/*/*/message M \x7b\x7d" = .ok f ∧
    f.Same { messages := [{ name := "M" }] } := by
  refine parse_of_mem_fileText memoryName ?_ rfl
  have hcomment : "/*/*/".toList ∈ gapText :=
    (le_kstar : unitText ≤ gapText) (blockComment_mem_unitText (s := ['/']) (by decide))
  have hmembers : [] ∈ gapText * mixedText fieldText enumText [] [] :=
    Language.append_mem_mul nil_mem_gapText ⟨[], rfl, rfl, Language.nil_mem_one⟩
  have hmessage : "message".toList ++ [' '] ++ ("M".toList ++ ' ' :: '\x7b' :: ([] ++ '\x7d' :: []))
      ∈ messageText { name := "M" } :=
    Language.append_mem_mul (Language.append_mem_mul (mem_word.mpr rfl) space_mem_gapText)
      (body_mem (by decide) hmembers nil_mem_gapText)
  exact Language.append_mem_mul
    (Language.append_mem_mul hcomment (le_mixedText_left messageText enumText _ hmessage)) (.inl rfl)

/-- The slash behind the opening mark does not close the comment, and neither does the star in front of
the cut. -/
theorem unterminated_comments_star : ∃ f,
    parse memoryName "/*/*/message M \x7b\x7d" = .ok f ∧
    CommentInGap memoryName "/*/*/message M \x7b\x7d" [] ['/'] "message M \x7b\x7d".toList ∧
    ∃ err, parse memoryName "/*/*" = .error (.rejected err) ∧
      err.text = "unterminated block comment" ∧ err.span.start.offset = 4 ∧
      err.expected = ["\"*/\""] ∧
      ∃ x y, "/*/*".toList = x ++ '/' :: '*' :: y ∧ ¬ ['*', '/'] <:+: y := by
  have hgap : CommentInGap memoryName "/*/*/message M \x7b\x7d" [] ['/'] "message M \x7b\x7d".toList :=
    { text := rfl
      body := by decide
      tried := .ref find_fileRule (.action (.seq_head (.round .self))) }
  have hcut : String.ofList ("/*/*/message M \x7b\x7d".toList.take 4) = "/*/*" := rfl
  obtain ⟨f, hf, -⟩ := exists_parse_front
  obtain ⟨err, herr, htext, hstart, hexpected⟩ :=
    unterminated_comments.1 _ _ _ _ _ _ hf hgap memoryName 4 (by decide) (by decide)
  rw [hcut] at herr
  obtain ⟨-, hmark⟩ := unterminated_comments.2 _ _ _ herr htext
  exact ⟨f, hf, hgap, err, herr, htext, hstart, hexpected, hmark⟩

end MessageIdl.Schema
