import MessageIdl.Proofs.Schema.Suggestions

/-!
# Crossing the end of a part

A part of a file ends in a gap, which takes what it can of the text behind the part.  All other failures
on the way of the part happen in the part itself, so that behind its end the part fails as the gap
does.

* `EndsInGap`: an expression that takes a text and goes on like a gap behind it.
* `endsInGap_gap`: gaps do so.
* `Guides.misses_le`: what is read in front of a closing mark fails in front of it.
* `endsInGap_block`: a keyword and a body in braces do so.
* `endsInGap_enum`, `endsInGap_message`, `endsInGap_declaration`: declarations do so.
-/

namespace MessageIdl.Schema

open MessageIdl.Peg MessageIdl.Source
open scoped Computability

variable {lines : LineIndex}

/-- Tried in front of `d`, whatever follows, `e` takes `d` and then what a gap takes; behind `d` it
fails where that gap does. -/
def EndsInGap (lines : LineIndex) (e : Expr Node) (d : List Char) : Prop :=
  ∀ (c : Cursor) (b : List Char), c.rest = d ++ b → ∀ stop w,
    Yields rules.find lines gap (c.advance d.length) (.matched stop w) →
      (∃ v, Yields rules.find lines e c (.matched stop v)) ∧
      ∀ pos label, c.offset + d.length ≤ pos →
        (Misses rules.find lines e c pos label ↔
          Misses rules.find lines gap (c.advance d.length) pos label)

/-! ### Gaps -/

/-- **How a unit of a gap fails**: where it begins, or for want of the closing mark of a block comment,
behind the text of the comment. -/
theorem misses_unit {c : Cursor} {pos : Nat} {label : String}
    (hm : Misses rules.find lines (.ref "_") c pos label) :
    pos = c.offset ∧ label ≠ commentCloseLabel ∨ ∃ t, c.rest = '/' :: '*' :: t ∧
      ¬ ['*', '/'] <+: t.drop (beforeClose t) ∧ pos = c.offset + 2 + beforeClose t ∧
      label = commentCloseLabel := by
  have hm := misses_action.mp ((misses_ref find_gapRule).mp hm)
  cases hm with
  | seq_tail _ hm => exact absurd hm not_misses_seq_nil
  | seq_head hm =>
    obtain ⟨e, he, hm⟩ := hm.exists_alternative
    simp only [List.mem_cons, List.not_mem_nil, or_false] at he
    rcases he with rfl | rfl | rfl
    · cases hm
      exact .inl ⟨rfl, by decide⟩
    · cases hm
      exact .inl ⟨rfl, by decide⟩
    · cases hm with
      | seq_head hm =>
        cases hm
        exact .inl ⟨rfl, by decide⟩
      | seq_tail hopen hm =>
        obtain ⟨hc, -⟩ := (Ensures.literal _).matched hopen
        cases hopen
        cases hm with
        | seq_head hm => exact absurd hm (not_misses_pattern rfl)
        | seq_tail htext hm =>
          obtain ⟨n, hn, rfl, -⟩ := (Ensures.pattern _).matched htext
          cases hn
          cases hm with
          | seq_tail _ hm => exact absurd hm not_misses_seq_nil
          | seq_head hm =>
            cases hm with
            | literal hclose => exact .inr ⟨_, hc, hclose, rfl, rfl⟩

/-- A unit of the language that is taken fails where it begins. -/
theorem misses_unit_offset {u t : List Char} (hu : u ∈ unitText) {c : Cursor} {pos : Nat}
    {label : String} (hc : c.rest = u ++ t)
    (hm : Misses rules.find lines (.ref "_") c pos label) : pos = c.offset := by
  refine ((misses_unit hm).resolve_right ?_).1
  rintro ⟨s', hs', hopen, -⟩
  rw [hc] at hs'
  rcases mem_unitText hu with ⟨d, hd, rfl⟩ | ⟨s, -, rfl⟩ | ⟨s, hs, rfl⟩
  · cases hs'
    exact slash_not_mem_blanks hd
  · cases hs'
  · simp only [List.cons_append, List.append_assoc, List.nil_append, List.cons.injEq, true_and] at hs'
    subst hs'
    rw [beforeClose_append hs, List.drop_left] at hopen
    exact hopen ⟨t, rfl⟩

variable (lines) in
/-- In front of a solid text a gap takes nothing, and fails there only. -/
theorem gap_solid {c : Cursor} (hc : Solid c.rest) :
    (∃ w, Yields rules.find lines gap c (.matched c w)) ∧
      ∀ pos label, Misses rules.find lines gap c pos label → pos = c.offset := by
  have hunit : Yields rules.find lines (.ref "_") c .failed := refuses_unit hc c rfl
  refine ⟨⟨_, .round_last hunit⟩, fun pos label hm => ?_⟩
  have hm := (misses_round_last hunit nofun).mp hm
  refine ((misses_unit hm).resolve_right ?_).1
  rintro ⟨t, ht, -⟩
  rw [ht] at hc
  exact (hc '/' rfl).2 rfl

/-- **A gap goes on like a gap**, by induction on its units. -/
theorem endsInGap_gap {g : List Char} (hg : g ∈ gapText) : EndsInGap lines gap g := by
  obtain ⟨units, rfl, hunits⟩ := Language.mem_kstar.mp hg
  clear hg
  induction units with
  | nil =>
    intro c b _ stop w hy
    exact ⟨⟨w, hy⟩, fun pos label _ => Iff.rfl⟩
  | cons u units ih =>
    intro c b hc stop w hy
    rw [List.flatten_cons] at hc hy ⊢
    have hu := hunits u List.mem_cons_self
    have hpos := List.length_pos_iff.mpr (unitText_ne_nil hu)
    rw [List.append_assoc] at hc
    have htake : Takes rules.find lines (.ref "_") (u ++ (units.flatten ++ b)) _ _ :=
      takes_unit (takes_gapUnit hu (units.flatten ++ b))
    obtain ⟨mid, v, hunit, hmid, -⟩ := htake c hc
    have hadvance := hunit.reaches.eq_advance (u := u) (by rw [hmid, hc])
    subst hadvance
    have hne : (c.advance u.length).offset ≠ c.offset := by
      rw [Cursor.advance_offset]
      omega
    have hsame : (c.advance u.length).advance units.flatten.length
        = c.advance (u ++ units.flatten).length := by
      rw [Cursor.advance_advance, List.length_append]
    rw [← hsame] at hy ⊢
    obtain ⟨⟨v', hgap⟩, hmisses⟩ :=
      ih (fun u' hu' => hunits u' (List.mem_cons_of_mem u hu')) _ b hmid stop w hy
    obtain ⟨vs, rfl⟩ := hgap.repeated_value
    refine ⟨⟨_, .round_more hunit hne hgap⟩, fun pos label hle => ?_⟩
    rw [List.length_append] at hle
    rw [show gap = .repeated 0 (.ref "_") from rfl, misses_round_more hunit hne]
    rw [or_iff_right]
    · exact hmisses pos label (by rw [Cursor.advance_offset]; omega)
    · intro hm
      have hoffset := misses_unit_offset hu hc hm
      omega

/-! ### Rows that end in gaps -/

namespace EndsInGap

variable {e : Expr Node} {es : List (Expr Node)} {d : List Char}

theorem row_one (h : EndsInGap lines e d) : EndsInGap lines (.seq [e]) d := by
  intro c b hc stop w hy
  obtain ⟨⟨v, hv⟩, hmisses⟩ := h c b hc stop w hy
  refine ⟨⟨_, .seq_cons hv .seq_nil⟩, fun pos label hle => ?_⟩
  rw [misses_seq_matched hv, or_iff_left not_misses_seq_nil]
  exact hmisses pos label hle

/-- What is tried in front of the row takes `x` and does not fail behind `d`. -/
theorem behind {front : List (Expr Node)} {x : List Char} (h : EndsInGap lines (.seq es) d)
    (htake : ∀ t, Takes rules.find lines (.seq front) (x ++ (d ++ t)) (d ++ t) (fun _ => True))
    (hmiss : ∀ c t pos label, c.rest = x ++ (d ++ t) →
      Misses rules.find lines (.seq front) c pos label → pos < c.offset + (x ++ d).length) :
    EndsInGap lines (.seq (front ++ es)) (x ++ d) := by
  intro c b hc stop w hy
  rw [List.append_assoc] at hc
  obtain ⟨mid, v, hfront, hmid, -⟩ := htake b c hc
  obtain ⟨xs, rfl⟩ := hfront.seq_value
  have hadvance := hfront.reaches.eq_advance (u := x) (by rw [hmid, hc])
  subst hadvance
  rw [List.length_append, ← Cursor.advance_advance] at hy ⊢
  obtain ⟨⟨v, hrow⟩, hmisses⟩ := h _ b hmid stop w hy
  obtain ⟨ys, rfl⟩ := hrow.seq_value
  refine ⟨⟨_, hfront.row_append hrow⟩, fun pos label hle => ?_⟩
  rw [misses_row_append hfront, or_iff_right]
  · exact hmisses pos label (by rw [Cursor.advance_offset]; omega)
  · intro hm
    have hlt := hmiss c b pos label hc hm
    rw [List.length_append] at hlt
    omega

theorem action {act : Action Node} (h : EndsInGap lines e d)
    (hraise : ∀ c fault, ¬ Yields rules.find lines (.action act e) c (.raised fault)) :
    EndsInGap lines (.action act e) d := by
  intro c b hc stop w hy
  obtain ⟨⟨v, hv⟩, hmisses⟩ := h c b hc stop w hy
  refine ⟨?_, fun pos label hle => misses_action.trans (hmisses pos label hle)⟩
  cases hb : act.build v.spread (lines.span c.offset stop.offset) with
  | ok built => exact ⟨built, .action hv hb⟩
  | error fault => exact absurd (.action_raised hv hb) (hraise c fault)

theorem ref {name : String} (hf : rules.find name = some e) (h : EndsInGap lines e d) :
    EndsInGap lines (.ref name) d := by
  intro c b hc stop w hy
  obtain ⟨⟨v, hv⟩, hmisses⟩ := h c b hc stop w hy
  exact ⟨⟨v, .ref hf hv⟩, fun pos label hle => (misses_ref hf).trans (hmisses pos label hle)⟩

theorem passOn (h : EndsInGap lines e d) : EndsInGap lines (boundBody passOn [e]) d := by
  intro c b hc stop w hy
  obtain ⟨⟨v, hv⟩, hmisses⟩ := h c b hc stop w hy
  refine ⟨⟨v, .action (.seq_cons hv .seq_nil) rfl⟩, fun pos label hle => ?_⟩
  rw [boundBody, misses_action, misses_seq_matched hv, or_iff_left not_misses_seq_nil]
  exact hmisses pos label hle

theorem choice_head (h : EndsInGap lines e d) : EndsInGap lines (.choice (e :: es)) d := by
  intro c b hc stop w hy
  obtain ⟨⟨v, hv⟩, hmisses⟩ := h c b hc stop w hy
  refine ⟨⟨v, .choice_commit hv nofun⟩, fun pos label hle => ?_⟩
  rw [misses_choice_commit hv nofun]
  exact hmisses pos label hle

/-- An alternative that fails in front of the text only hides nothing behind it. -/
theorem choice_tail (h : EndsInGap lines (.choice es) d)
    (hrefuse : ∀ t, Refuses rules.find lines e (d ++ t))
    (hmiss : ∀ c t pos label, c.rest = d ++ t → Misses rules.find lines e c pos label →
      pos < c.offset + d.length) : EndsInGap lines (.choice (e :: es)) d := by
  intro c b hc stop w hy
  obtain ⟨⟨v, hv⟩, hmisses⟩ := h c b hc stop w hy
  have hfail := hrefuse b c hc
  refine ⟨⟨v, .choice_next hfail hv⟩, fun pos label hle => ?_⟩
  rw [misses_choice_failed hfail, or_iff_right]
  · exact hmisses pos label hle
  · intro hm
    exact absurd (hmiss c b pos label hc hm) (Nat.not_lt.mpr hle)

end EndsInGap

/-! ### Rows with a closing brace -/

/-- **Failures in front of a closing mark.**  If an expression takes the texts of a language in front of a
mark, whatever follows the mark, and all failures on its way lead on to such texts, then none of them
lies behind the mark: the text up to there would have two readings. -/
theorem Guides.misses_le {find : String → Option (Expr Node)} {e : Expr Node} {L : Language Char}
    {mark : Char} (h : Guides find lines e L)
    (htake : ∀ x ∈ L, ∀ t, Takes find lines e (x ++ mark :: t) (mark :: t) (fun _ => True))
    {c : Cursor} {x t : List Char} (hx : x ∈ L) (hc : c.rest = x ++ mark :: t) {pos : Nat}
    {label : String} (hm : Misses find lines e c pos label) : pos ≤ c.offset + x.length := by
  obtain ⟨u, r, w, y, hu, rfl, -, hmem⟩ := h.missed c pos label hm
  by_contra hlt
  rw [Nat.not_le, Nat.add_lt_add_iff_left] at hlt
  -- the text up to the failure reaches behind the mark
  obtain ⟨z, rfl⟩ : x ++ [mark] <+: u := by
    have hmark : x ++ [mark] <+: u ++ r := by
      rw [← hu, hc]
      exact ⟨t, by rw [List.append_assoc, List.singleton_append]⟩
    refine List.prefix_of_prefix_length_le hmark (List.prefix_append u r) ?_
    rw [List.length_append, List.length_singleton]
    omega
  have hsame : x ++ [mark] ++ z ++ (w ++ y) ++ [mark] = x ++ mark :: (z ++ (w ++ y) ++ [mark]) := by
    simp only [List.append_assoc, List.cons_append, List.nil_append]
  obtain ⟨_, _, hy, hstop, -⟩ := htake _ hmem [] ⟨0, _⟩ rfl
  obtain ⟨_, _, hy', hstop', -⟩ := htake x hx _ ⟨0, _⟩ hsame
  cases hy.deterministic hy'
  rw [hstop] at hstop'
  have hlen := congrArg List.length hstop'
  simp only [List.length_cons, List.length_append, List.length_nil] at hlen
  omega

/-- The brace that closes a body, and the gap behind it. -/
theorem endsInGap_closing {g : List Char} (hg : g ∈ gapText) :
    EndsInGap lines (.seq [terminal .closeBrace, gap]) ("\x7d".toList ++ g) := by
  have hclose (t : List Char) : Takes rules.find lines (terminal .closeBrace) ('\x7d' :: t) t _ :=
    Takes.literal "\x7d" t
  show EndsInGap lines (.seq ([terminal .closeBrace] ++ [gap])) _
  refine (endsInGap_gap hg).row_one.behind (fun t => ?_) fun c t pos label hc hm => ?_
  · exact Takes.imp ((hclose (g ++ t)).row_cons .nil) fun _ _ => trivial
  · cases hm with
    | seq_head hm => exact absurd hm (not_misses_literal ⟨g ++ t, hc.symm⟩)
    | seq_tail _ hm => exact absurd hm not_misses_seq_nil

/-- **A row that ends in a closing brace and a gap** goes on like the gap. -/
theorem endsInGap_closed {opening : List (Expr Node)} {L : Language Char}
    (hguide : Guides rules.find lines (.seq opening) L)
    (htake : ∀ x ∈ L, ∀ t,
      Takes rules.find lines (.seq opening) (x ++ '\x7d' :: t) ('\x7d' :: t) (fun _ => True))
    {d : List Char} (hd : d ∈ L * (word "\x7d" * gapText)) :
    EndsInGap lines (.seq (opening ++ [terminal .closeBrace, gap])) d := by
  obtain ⟨x, hx, _, hrest, rfl⟩ := Language.mem_mul.mp hd
  obtain ⟨_, rfl, g, hg, rfl⟩ := Language.mem_mul.mp hrest
  refine (endsInGap_closing hg).behind (fun t => htake x hx (g ++ t)) fun c t pos label hc hm => ?_
  have hle := hguide.misses_le htake hx hc hm
  simp only [List.length_append]
  have hmark : "\x7d".toList.length = 1 := rfl
  omega

/-! ### Declarations -/

section Block

variable {A : Type} {keyword : Lexeme} {between items : Expr Node} {G : Language Char}
  {L : A → Language Char} {P : A → Value Node → Prop}

/-- The texts of blocks up to the brace that closes them: a keyword, a gap of some kind, and the head of
a body. -/
def openingText (keyword : Lexeme) (G : Language Char) (L : A → Language Char) : Language Char :=
  ⨆ s, ⨆ a, word keyword.text * (G * headText s (L a))

theorem guides_opening (hkeyword : '\n' ∉ keyword.text.toList)
    (hbetween : Guides rules.find lines between G)
    (hitems : Guides rules.find lines items (⨆ a, L a)) :
    Guides rules.find lines (.seq (terminal keyword :: between :: headRow items))
      (openingText keyword G L) := by
  have hrow := (Guides.literal keyword.text hkeyword).row_cons <| hbetween.row_cons <|
    guides_name.row_cons <| guides_gap.row_cons <| (Guides.literal "\x7b" (by decide)).row_cons <|
    guides_gap.row_cons hitems.row_one
  refine hrow.mono ?_
  simp only [openingText, headText, namesText, Language.iSup_mul, Language.mul_iSup, mul_assoc]
  rw [iSup_comm]

theorem takes_opening
    (hbetween : ∀ g ∈ G, ∀ t, Solid t → Takes rules.find lines between (g ++ t) t (fun _ => True))
    (hbegin : ∀ a, ∀ x ∈ L a, x ≠ [] → ∀ t, Solid (x ++ t))
    (hitems : ∀ a t u, Reads (L a) t ('\x7d' :: u) → Solid t →
      Takes rules.find lines items t ('\x7d' :: u) (P a))
    {x : List Char} (hx : x ∈ openingText keyword G L) (t : List Char) :
    Takes rules.find lines (.seq (terminal keyword :: between :: headRow items))
      (x ++ '\x7d' :: t) ('\x7d' :: t) (fun _ => True) := by
  obtain ⟨s, hx⟩ := Language.mem_iSup.mp hx
  obtain ⟨a, hx⟩ := Language.mem_iSup.mp hx
  obtain ⟨_, rfl, z, hz, rfl⟩ := Language.mem_mul.mp hx
  obtain ⟨g, hg, y, hy, rfl⟩ := Language.mem_mul.mp hz
  have hword : Takes rules.find lines (terminal keyword)
      (keyword.text.toList ++ (g ++ (y ++ '\x7d' :: t))) _ _ := Takes.literal _ _
  have hgap := hbetween g hg (y ++ '\x7d' :: t) (solid_head hy _)
  have hhead : TakesRow rules.find lines _ (y ++ '\x7d' :: t) _ _ :=
    takes_headRow (hbegin a) (hitems a) hy t
  rw [List.append_assoc, List.append_assoc]
  exact Takes.imp (hword.row_cons (hgap.row_cons hhead)) fun _ _ => trivial

/-- **A block goes on like a gap** behind the brace that closes it. -/
theorem endsInGap_block (hkeyword : '\n' ∉ keyword.text.toList)
    (hbetween : Guides rules.find lines between G)
    (htake : ∀ g ∈ G, ∀ t, Solid t → Takes rules.find lines between (g ++ t) t (fun _ => True))
    (hguide : Guides rules.find lines items (⨆ a, L a))
    (hbegin : ∀ a, ∀ x ∈ L a, x ≠ [] → ∀ t, Solid (x ++ t))
    (hitems : ∀ a t u, Reads (L a) t ('\x7d' :: u) → Solid t →
      Takes rules.find lines items t ('\x7d' :: u) (P a))
    {s : String} {a : A} {d : List Char} (hd : d ∈ word keyword.text * G * bodyText s (L a)) :
    EndsInGap lines (.seq (terminal keyword :: between :: bodyRow items)) d := by
  have hle : word keyword.text * (G * headText s (L a)) ≤ openingText keyword G L :=
    le_iSup_of_le s (le_iSup (fun a => word keyword.text * (G * headText s (L a))) a)
  have hopening : d ∈ openingText keyword G L * (word "\x7d" * gapText) := by
    rw [bodyText_eq, mul_assoc, ← mul_assoc G, ← mul_assoc] at hd
    exact mul_le_mul_left hle _ hd
  exact endsInGap_closed (guides_opening hkeyword hbetween hguide)
    (fun x hx t => takes_opening htake hbegin hitems hx t) hopening

end Block

/-- What a rule refers to raises no fault if the rule raises none. -/
theorem not_raised_body {name : String} {body : Expr Node} {R : Cursor → Cursor → Value Node → Prop}
    (hf : rules.find name = some body) (h : Ensures rules.find lines (.ref name) R) (c : Cursor)
    (fault : Fault) : ¬ Yields rules.find lines body c (.raised fault) :=
  fun hy => h.not_raised (.ref hf hy)

theorem endsInGap_enum {e : Enumeration} {d : List Char} (hd : d ∈ enumText e) :
    EndsInGap lines (.ref "EnumDefinition") d := by
  have hblock : d ∈ word Lexeme.enum.text * gap1Text * bodyText e.name (valuesText e.values) := hd
  have hrow : EndsInGap lines _ d := endsInGap_block (by decide) guides_gap1
    (fun g hg t => takes_gap1 (Reads.of_mem hg t)) guides_values
    (fun vs => valuesText_begins) (fun vs t u => takes_valueItems) hblock
  exact (hrow.action (not_raised_body find_enumRule enum_ensures)).ref find_enumRule

/-- The texts between the braces of a message. -/
def membersText (members : List Field × List Enumeration) : Language Char :=
  mixedText fieldText enumText members.1 members.2

theorem guides_members : Guides rules.find lines (.repeated 0 (.ref "MessageInternal"))
    (⨆ members, membersText members) :=
  (guides_mixed find_memberRule guides_field guides_enum).mono <| iSup_le fun parts =>
    le_iSup membersText (parts.filterMap Sum.getLeft?, parts.filterMap Sum.getRight?)

theorem endsInGap_message {m : Message} {d : List Char} (hd : d ∈ messageText m) :
    EndsInGap lines (.ref "MessageDefinition") d := by
  have hblock : d ∈ word Lexeme.message.text * gapText
    * bodyText m.name (membersText (m.fields, m.enums)) := hd
  have hrow : EndsInGap lines _ d := endsInGap_block (by decide) guides_gap
    (fun g hg t => takes_gap (Reads.of_mem hg t)) guides_members
    (fun members => mixedText_begins beginsSolid_fieldText beginsSolid_enumText)
    (fun members t u => takes_memberItems) hblock
  exact (hrow.action (not_raised_body find_messageRule message_ensures)).ref find_messageRule

/-- Where no message begins, the rule of messages fails at once. -/
theorem misses_message_offset {c : Cursor} {pos : Nat} {label : String}
    (hc : ¬ "message".toList <+: c.rest)
    (hm : Misses rules.find lines (.ref "MessageDefinition") c pos label) : pos = c.offset := by
  have hword : Yields rules.find lines (terminal .message) c .failed := .literal_failed hc
  have hm := misses_action.mp ((misses_ref find_messageRule).mp hm)
  exact ((misses_literal hc).mp ((misses_seq_stop hword Outcome.unmatched_failed).mp hm)).1

/-- **A declaration goes on like a gap** behind its text. -/
theorem endsInGap_declaration (p : Message ⊕ Enumeration) {d : List Char}
    (hd : d ∈ p.elim messageText enumText) : EndsInGap lines (.ref "MessageOrEnum") d := by
  refine EndsInGap.ref find_declarationRule ?_
  cases p with
  | inl m => exact (endsInGap_message hd).passOn.choice_head
  | inr e =>
    have hreads (t : List Char) : Reads (enumText e) (d ++ t) t := .of_mem hd t
    refine (endsInGap_enum hd).passOn.choice_head.choice_tail
      (fun t => refuses_passOn (refuses_message_of_enum (hreads t))) fun c t pos label hc hm => ?_
    cases misses_action.mp hm with
    | seq_head hm =>
      rw [misses_message_offset (hc ▸ not_message_of_enum (hreads t)) hm]
      have hpos := List.length_pos_iff.mpr (beginsSolid_enumText e d hd).1
      omega
    | seq_tail _ hm => exact absurd hm not_misses_seq_nil

end MessageIdl.Schema
