import Mathlib.Algebra.Order.BigOperators.Group.List
import MessageIdl.Proofs.Peg.Shifting
import MessageIdl.Proofs.Schema.Actions
import MessageIdl.Proofs.Schema.Crossing
import MessageIdl.Proofs.Schema.Slices

/-!
# Joining texts

A text that is parsed, a line feed and any other text behind it are read like the two texts one after
the other: the declarations of both in a row, or the parse error of the second one.

* `rules_steady`: no action looks at its span, so that the rules read alike at all places.
* `rounds_cross`: declarations in a row, with a text behind them.
* `file_crosses`: the rule of files on a text behind declarations.
* `failure_behind`, `rejected_behind`: failures and parse errors behind declarations.
* `parse_append`: the parse of two texts that are joined by a line feed.
-/

namespace MessageIdl.Schema

open MessageIdl.Peg MessageIdl.Source
open scoped Computability

variable {lines : LineIndex}

/-! ### Reading at another place -/

/-- What is kept of the nodes when two readings are compared: nothing. -/
def anyNode : Node → Unit := fun _ => ()

/-- Two answers of an action to values of one shape have one shape. -/
def Uniform (act : Action Node) : Prop :=
  ∀ vs vs' span span' built built', Value.shapes anyNode vs = Value.shapes anyNode vs' →
    act.build vs span = .ok built → act.build vs' span' = .ok built' →
      built.shape anyNode = built'.shape anyNode

theorem uniform_of_records {act : Action Node} (h : Records act) : Uniform act := by
  intro vs vs' span span' built built' _ hb hb'
  obtain ⟨n, rfl, -⟩ := h vs span built hb
  obtain ⟨n', rfl, -⟩ := h vs' span' built' hb'
  rfl

theorem uniform_passOn : Uniform passOn := by
  intro vs vs' span span' built built' hshape hb hb'
  cases vs with
  | nil => cases hb
  | cons v vs =>
    cases vs' with
    | nil => cases hb'
    | cons v' vs' =>
      cases hb
      cases hb'
      exact (List.cons.inj hshape).1

theorem uniform_dropGap : Uniform dropGap := by
  intro vs vs' span span' built built' _ hb hb'
  cases hb
  cases hb'
  rfl

theorem uniform_mark : Uniform mark := by
  intro vs vs' span span' built built' _ hb hb'
  cases hb
  cases hb'
  rfl

/-- An action that answers all matches of what it is bound to, and always in one shape. -/
theorem steady_of_accepts {act : Action Node} {body : Expr Node} (h : Accepts act body)
    (hact : Uniform act) : Steady rules.find anyNode act body := by
  intro lines lines' c c' stop stop' v v' hy hy' hv
  obtain ⟨built, hb⟩ := h _ _ _ _ hy
  obtain ⟨built', hb'⟩ := h _ _ _ _ hy'
  have hshapes : Value.shapes anyNode v.spread = Value.shapes anyNode v'.spread := by
    rw [Value.shapes_spread, Value.shapes_spread, hv]
  rw [hb, hb']
  exact congrArg Except.ok (hact _ _ _ _ _ _ hshapes hb hb')

/-- All actions of the grammar answer in one shape. -/
theorem actions_uniform : ∀ r ∈ grammar.rules, ∀ a ∈ r.body.actions, Uniform a.1 := by
  have passes {as : List (Action Node × Expr Node)} (h : ∀ a ∈ as, ∃ e, a = (passOn, .seq [e])) :
      ∀ a ∈ as, Uniform a.1 := by
    intro a ha
    obtain ⟨e, rfl⟩ := h a ha
    exact uniform_passOn
  have single {act : Action Node} {body : Expr Node} (h : Uniform act) :
      ∀ a ∈ [(act, body)], Uniform a.1 := by
    intro a ha
    cases List.mem_singleton.mp ha
    exact h
  intro r hr
  simp only [grammar, List.mem_cons, List.not_mem_nil, or_false] at hr
  rcases hr with rfl | rfl | rfl | rfl | rfl | rfl | rfl | rfl | rfl | rfl
  · exact single uniform_dropGap
  · exact single uniform_mark
  · exact passes (typeAlternatives_actions Scalar.all)
  · exact single (uniform_of_records records_field)
  · exact single (uniform_of_records records_enumValue)
  · exact single (uniform_of_records records_enumeration)
  · exact passes (eitherRule_actions _ _)
  · exact single (uniform_of_records records_message)
  · exact passes (eitherRule_actions _ _)
  · exact single (uniform_of_records records_file)

/-- **The rules read alike at all places** where the same text is left. -/
theorem rules_steady {name : String} {body : Expr Node} (hf : rules.find name = some body) :
    body.SteadyActions rules.find anyNode := by
  obtain ⟨r, hr, -, rfl⟩ := exists_rule hf
  exact fun a ha => steady_of_accepts (actions_accept r hr a ha) (actions_uniform r hr a ha)

/-! ### Declarations in a row -/

/-- The texts of declarations in a row. -/
def partsText (parts : List (Message ⊕ Enumeration)) : Language Char :=
  (parts.map (Sum.elim messageText enumText)).prod

theorem partsText_begins (p : Message ⊕ Enumeration) (parts : List (Message ⊕ Enumeration)) :
    BeginsSolid (partsText (p :: parts)) :=
  (beginsSolid_either beginsSolid_messageText beginsSolid_enumText p).mul _

/-- In front of declarations a gap takes nothing, and fails there only. -/
theorem gap_parts (p : Message ⊕ Enumeration) (parts : List (Message ⊕ Enumeration)) {c : Cursor}
    {t b : List Char} (ht : t ∈ partsText (p :: parts)) (hc : c.rest = t ++ b) :
    (∃ w, Yields rules.find lines gap c (.matched c w)) ∧
      ∀ pos label, Misses rules.find lines gap c pos label → pos = c.offset := by
  have hsolid : Solid c.rest := by
    rw [hc]
    exact (partsText_begins p parts t ht).2 b
  exact gap_solid lines hsolid

/-- The rounds of declarations. -/
def declarations : Expr Node := .repeated 0 (.ref "MessageOrEnum")

/-- **Declarations in a row** are read one after the other, and what follows is read behind the gap of
the last one, by induction on the declarations. -/
theorem rounds_cross (p : Message ⊕ Enumeration) (parts : List (Message ⊕ Enumeration))
    {c s stop : Cursor} {t b : List Char} {w v : Value Node} (ht : t ∈ partsText (p :: parts))
    (hc : c.rest = t ++ b)
    (hgap : Yields rules.find lines gap (c.advance t.length) (.matched s w))
    (hitems : Yields rules.find lines declarations s (.matched stop v)) :
    (∃ v', Yields rules.find lines declarations c (.matched stop v')) ∧
      ∀ pos label, c.offset + t.length ≤ pos →
        (Misses rules.find lines declarations c pos label ↔
          Misses rules.find lines gap (c.advance t.length) pos label ∨
            Misses rules.find lines declarations s pos label) := by
  induction parts generalizing p c t with
  | nil =>
    have hd : t ∈ p.elim messageText enumText := (mul_one (p.elim messageText enumText)).le ht
    have hpos := List.length_pos_iff.mpr (partsText_begins p [] t ht).1
    obtain ⟨⟨x, hx⟩, hmisses⟩ := endsInGap_declaration p hd c b hc s w hgap
    have hne : s.offset ≠ c.offset := by
      have hle := hgap.reaches.offset_le
      rw [Cursor.advance_offset] at hle
      omega
    obtain ⟨vs, rfl⟩ := hitems.repeated_value
    refine ⟨⟨_, .round_more hx hne hitems⟩, fun pos label hle => ?_⟩
    rw [declarations, misses_round_more hx hne, hmisses pos label hle]
  | cons q parts ih =>
    obtain ⟨d, hd, t, ht', rfl⟩ := Language.mem_mul.mp ht
    have hpos := List.length_pos_iff.mpr
      (beginsSolid_either beginsSolid_messageText beginsSolid_enumText p d hd).1
    have hpos' := List.length_pos_iff.mpr (partsText_begins q parts t ht').1
    rw [List.append_assoc] at hc
    have hmid : (c.advance d.length).rest = t ++ b := by
      rw [Cursor.advance_rest, hc, List.drop_left]
    obtain ⟨⟨w', hw'⟩, hend⟩ := gap_parts q parts ht' hmid
    obtain ⟨⟨x, hx⟩, hmisses⟩ := endsInGap_declaration p hd c (t ++ b) hc _ _ hw'
    have hne : (c.advance d.length).offset ≠ c.offset := by
      rw [Cursor.advance_offset]
      omega
    rw [List.length_append, ← Cursor.advance_advance] at hgap ⊢
    obtain ⟨⟨v', hv'⟩, hrest⟩ := ih q ht' hmid hgap
    obtain ⟨vs, rfl⟩ := hv'.repeated_value
    refine ⟨⟨_, .round_more hx hne hv'⟩, fun pos label hle => ?_⟩
    rw [declarations, misses_round_more hx hne, or_iff_right]
    · exact hrest pos label (by rw [Cursor.advance_offset]; omega)
    · intro hm
      have hoffset := hend pos label ((hmisses pos label (by omega)).mp hm)
      rw [Cursor.advance_offset] at hoffset
      omega

/-! ### Files -/

/-- The rule of files fails where something is left behind the declarations. -/
theorem file_failed {c s stop : Cursor} {w v : Value Node}
    (hgap : Yields rules.find lines gap c (.matched s w))
    (hitems : Yields rules.find lines declarations s (.matched stop v)) (hstop : stop.rest ≠ []) :
    Yields rules.find lines (.ref "ProtocolFile") c .failed ∧ ∀ pos label,
      Misses rules.find lines (.ref "ProtocolFile") c pos label ↔
        Misses rules.find lines gap c pos label ∨ Misses rules.find lines declarations s pos label ∨
          pos = stop.offset ∧ label = endLabel := by
  have hend : Yields rules.find lines .endOfInput stop .failed := .endOfInput_failed hstop
  constructor
  · exact .ref find_fileRule (.action_stop (.seq_later_stop hgap (.seq_later_stop hitems
      (.seq_stop hend Outcome.unmatched_failed) Outcome.unmatched_failed)
      Outcome.unmatched_failed) Outcome.unmatched_failed)
  · intro pos label
    have hrow : Misses rules.find lines fileRule.body c pos label ↔
        Misses rules.find lines (.seq [gap, declarations, .endOfInput]) c pos label := misses_action
    rw [misses_ref find_fileRule, hrow, misses_seq_matched hgap, misses_seq_matched hitems,
      misses_seq_stop hend Outcome.unmatched_failed, misses_endOfInput hstop]

/-- Gaps and rounds do not fail, so the end of the input is missing where the rule of files fails. -/
theorem exists_of_file_failed {c : Cursor}
    (h : Yields rules.find lines (.ref "ProtocolFile") c .failed) :
    ∃ s w stop v, Yields rules.find lines gap c (.matched s w) ∧
      Yields rules.find lines declarations s (.matched stop v) ∧ stop.rest ≠ [] := by
  cases h with
  | ref hf h =>
    cases hf
    cases h with
    | action_stop h _ =>
      cases h with
      | seq_stop h _ => exact absurd h Yields.repeated_zero_ne_failed
      | seq_later_stop hgap h _ =>
        cases h with
        | seq_stop h _ => exact absurd h Yields.repeated_zero_ne_failed
        | seq_later_stop hitems h _ =>
          cases h with
          | seq_stop h _ =>
            cases h with
            | endOfInput_failed hstop => exact ⟨_, _, _, _, hgap, hitems, hstop⟩
          | seq_later_stop _ h _ => cases h

/-- **A file behind declarations.**  Where the rule of files fails on a text, it also fails on declarations
with the text behind them, and with the same failures from the text on. -/
theorem file_crosses {parts : List (Message ⊕ Enumeration)} {c : Cursor} {x b : List Char}
    (hx : x ∈ gapText * partsText parts) (hc : c.rest = x ++ b)
    (h : Yields rules.find lines (.ref "ProtocolFile") (c.advance x.length) .failed) :
    Yields rules.find lines (.ref "ProtocolFile") c .failed ∧ ∀ pos label,
      c.offset + x.length ≤ pos →
        (Misses rules.find lines (.ref "ProtocolFile") c pos label ↔
          Misses rules.find lines (.ref "ProtocolFile") (c.advance x.length) pos label) := by
  obtain ⟨s, w, stop, v, hgap, hitems, hstop⟩ := exists_of_file_failed h
  have hbehind := (file_failed hgap hitems hstop).2
  obtain ⟨g, hg, t, ht, rfl⟩ := Language.mem_mul.mp hx
  cases parts with
  | nil =>
    cases (show t = [] from ht)
    rw [List.append_nil] at hc hgap hbehind ⊢
    obtain ⟨⟨w', hw'⟩, hmisses⟩ := endsInGap_gap hg c b hc s w hgap
    obtain ⟨hfailed, hall⟩ := file_failed hw' hitems hstop
    refine ⟨hfailed, fun pos label hle => ?_⟩
    rw [hall, hbehind, hmisses pos label hle]
  | cons p parts =>
    have hpos := List.length_pos_iff.mpr (partsText_begins p parts t ht).1
    rw [List.append_assoc] at hc
    have hmid : (c.advance g.length).rest = t ++ b := by
      rw [Cursor.advance_rest, hc, List.drop_left]
    obtain ⟨⟨w₁, hw₁⟩, hend⟩ := gap_parts p parts ht hmid
    obtain ⟨⟨w₂, hw₂⟩, hfront⟩ := endsInGap_gap hg c (t ++ b) hc _ _ hw₁
    rw [List.length_append, ← Cursor.advance_advance] at hgap hbehind ⊢
    obtain ⟨⟨v', hv'⟩, hmisses⟩ := rounds_cross p parts ht hmid hgap hitems
    obtain ⟨hfailed, hall⟩ := file_failed hw₂ hv' hstop
    refine ⟨hfailed, fun pos label hle => ?_⟩
    rw [hall, hbehind, hmisses pos label (by rw [Cursor.advance_offset]; omega), or_assoc,
      or_iff_right]
    intro hm
    have hoffset := hend pos label ((hfront pos label (by omega)).mp hm)
    rw [Cursor.advance_offset] at hoffset
    omega

/-! ### Joined texts -/

/-- The failures of a parse are those of the rule of files, which leaves nothing over. -/
theorem failure_iff {file src label : String} {pos : Nat} :
    rules.Failure file src pos label ↔ Misses rules.find (LineIndex.ofText file src.toList)
      (.ref "ProtocolFile") ⟨0, src.toList⟩ pos label := by
  refine or_iff_left ?_
  rintro ⟨stop, v, hy, hstop, -⟩
  obtain ⟨f, -, -, hrest, -⟩ := file_ensures.matched hy
  exact hstop hrest

/-- A text is rejected if and only if the rule of files fails on it. -/
theorem rejected_iff {file src : String} : (∃ e, parse file src = .error (.rejected e)) ↔
    Yields rules.find (LineIndex.ofText file src.toList) (.ref "ProtocolFile") ⟨0, src.toList⟩
      .failed := by
  rcases parse_outcome file src with ⟨stop, f, hf, hy⟩ | ⟨hrejected, hy⟩
  · refine iff_of_false ?_ fun hfailed => ?_
    · rintro ⟨e, he⟩
      rw [hf] at he
      cases he
    · cases hfailed.deterministic hy
  · exact iff_of_true hrejected hy

/-- A text that is rejected has failures, that of the end of the input among them. -/
theorem exists_failure {file src : String} {e : ParseError}
    (h : parse file src = .error (.rejected e)) : ∃ pos label, rules.Failure file src pos label := by
  obtain ⟨s, _, stop, _, hgap, hitems, hstop⟩ := exists_of_file_failed (rejected_iff.mp ⟨e, h⟩)
  have hend := ((file_failed hgap hitems hstop).2 stop.offset endLabel).mpr (.inr (.inr ⟨rfl, rfl⟩))
  exact ⟨_, _, failure_iff.mpr hend⟩

/-- **Failures behind declarations.**  A text that is rejected is also rejected behind declarations, and the
failures from there on are those of the text itself. -/
theorem failure_behind {parts : List (Message ⊕ Enumeration)} {x : List Char}
    (hx : x ∈ gapText * partsText parts) {file more : String} {e : ParseError}
    (h : parse file more = .error (.rejected e)) (file' : String) {src : String}
    (hsrc : src.toList = x ++ more.toList) :
    (∃ e', parse file' src = .error (.rejected e')) ∧ ∀ pos label,
      rules.Failure file more pos label ↔ rules.Failure file' src (x.length + pos) label := by
  have hplace : (⟨0, src.toList⟩ : Cursor).advance x.length = ⟨x.length, more.toList⟩ := by
    rw [Cursor.advance, hsrc, List.drop_left, Nat.zero_add]
  have habreast : (⟨0, more.toList⟩ : Cursor).Abreast 0 x.length ⟨x.length, more.toList⟩ :=
    ⟨Nat.add_comm 0 x.length, rfl⟩
  -- the run on the text alone is one at its place behind the declarations
  obtain ⟨_, hmoved, ⟨⟩⟩ : ∃ o', Yields rules.find (LineIndex.ofText file' src.toList)
      (.ref "ProtocolFile") ⟨x.length, more.toList⟩ o' ∧
        Outcome.Alike anyNode 0 x.length .failed o' :=
    (rejected_iff.mp ⟨e, h⟩).moved (fun _ _ => rules_steady) (.ref _) habreast
  rw [← hplace] at hmoved
  obtain ⟨hjoined, hmisses⟩ := file_crosses hx hsrc hmoved
  refine ⟨rejected_iff.mpr hjoined, fun pos label => ?_⟩
  have hoffset : pos + x.length = x.length + pos + 0 := by omega
  have hle : 0 + x.length ≤ x.length + pos := by omega
  rw [failure_iff, failure_iff, hmisses _ _ hle, hplace]
  exact misses_moved (fun _ _ => rules_steady) (.ref _) habreast hoffset

/-- **Parse errors behind declarations.**  A text that is rejected is also rejected behind declarations,
for the same reason and at the same place. -/
theorem rejected_behind {parts : List (Message ⊕ Enumeration)} {x : List Char}
    (hx : x ∈ gapText * partsText parts) {file more : String} {e : ParseError}
    (h : parse file more = .error (.rejected e)) (file' : String) {src : String}
    (hsrc : src.toList = x ++ more.toList) :
    ∃ e', parse file' src = .error (.rejected e') ∧ e'.text = e.text ∧ e'.expected = e.expected ∧
      e'.hint = e.hint ∧ e'.span.start.offset = x.length + e.span.start.offset := by
  obtain ⟨⟨e', he'⟩, hbehind⟩ := failure_behind hx h file' hsrc
  obtain ⟨pos, label, hfailure⟩ := exists_failure h
  obtain ⟨w, failures, hw, hall, rfl⟩ := Parser.exists_reports (rules_rejected h)
  obtain ⟨w', failures', hw', hall', rfl⟩ := Parser.exists_reports (rules_rejected he')
  have hne : failures ≠ [] := List.ne_nil_of_mem ((hall pos label).mpr hfailure)
  obtain ⟨hfurthest, hexpected⟩ := hw'.moved hw hne fun pos label => by
    rw [hall, hall', hbehind]
  refine ⟨_, he', ?_⟩
  rw [Watch.explain_start file' (Parser.furthest_le_length hw' hall'),
    Watch.explain_start file (Parser.furthest_le_length hw hall), hfurthest, hsrc]
  obtain ⟨htext, hlabels, hhint⟩ := Watch.explain_behind hfurthest hexpected file' file more.toList
  exact ⟨htext, hlabels, hhint, rfl⟩

/-- A gap behind declarations belongs to the last one, or to the gap in front of them. -/
theorem gap_behind_parts (parts : List (Message ⊕ Enumeration)) :
    gapText * partsText parts * gapText ≤ gapText * partsText parts := by
  refine le_trans ?_ (gap_absorb (either_gap messageText_gap enumText_gap) parts)
  refine mul_le_mul_left (mul_le_mul_right (List.prod_le_prod' fun p _ x hx => ?_) _) _
  exact Language.append_mem_mul nil_mem_gapText hx

/-- A line feed ends the comment in which a file may end. -/
theorem exists_parts_lineFeed {t : List Char} {f : SchemaFile} (ht : t ∈ fileText f) :
    ∃ parts : List (Message ⊕ Enumeration), parts.filterMap Sum.getLeft? = f.messages ∧
      parts.filterMap Sum.getRight? = f.enums ∧ t ++ ['\n'] ∈ gapText * partsText parts := by
  obtain ⟨z, hz, tail, htail, rfl⟩ := Language.mem_mul.mp ht
  obtain ⟨g, hg, y, ⟨parts, hmessages, henums, hy⟩, rfl⟩ := Language.mem_mul.mp hz
  have hend : tail ++ ['\n'] ∈ gapText := by
    rcases htail with htail | htail
    · cases (show tail = [] from htail)
      exact lineFeed_mem_gapText
    · have hline : tail ++ ['\n'] ∈ lineCommentText := Language.append_mem_mul htail (mem_word.mpr rfl)
      exact (le_kstar : unitText ≤ gapText) (.inl (.inr hline))
  refine ⟨parts, hmessages, henums, gap_behind_parts parts ?_⟩
  rw [List.append_assoc]
  exact Language.append_mem_mul (Language.append_mem_mul hg hy) hend

/-- A file behind declarations is a file with all of them. -/
theorem join_mem_fileText {parts : List (Message ⊕ Enumeration)} {x y : List Char} {g : SchemaFile}
    (hx : x ∈ gapText * partsText parts) (hy : y ∈ fileText g) :
    x ++ y ∈ fileText
      { messages := parts.filterMap Sum.getLeft? ++ g.messages
        enums := parts.filterMap Sum.getRight? ++ g.enums } := by
  obtain ⟨z, hz, tail, htail, rfl⟩ := Language.mem_mul.mp hy
  obtain ⟨gap, hgap, u, ⟨parts', hmessages, henums, hu⟩, rfl⟩ := Language.mem_mul.mp hz
  obtain ⟨a, ha, t, ht, hat⟩ :=
    Language.mem_mul.mp (gap_behind_parts parts (Language.append_mem_mul hx hgap))
  have hmixed : t ++ u ∈ mixedText messageText enumText
      (parts.filterMap Sum.getLeft? ++ g.messages) (parts.filterMap Sum.getRight? ++ g.enums) := by
    refine ⟨parts ++ parts', ?_, ?_, ?_⟩
    · rw [List.filterMap_append, hmessages]
    · rw [List.filterMap_append, henums]
    · rw [List.map_append, List.prod_append]
      exact Language.append_mem_mul ht hu
  have hjoin : x ++ (gap ++ u ++ tail) = a ++ (t ++ u) ++ tail := by
    rw [← List.append_assoc, ← List.append_assoc, ← hat, List.append_assoc a]
  rw [hjoin]
  exact Language.append_mem_mul (Language.append_mem_mul ha hmixed) htail

/-- **Joined texts are read one after the other.**  Let a text be parsed.  With a line feed and a second
text behind it, it is parsed if and only if the second text is; then its messages are those of the first
text followed by those of the second one, and so are its enumerations.  If the second text is rejected,
the joined text is rejected with the same wording, the same things expected and the same hint, at the
offset of the second text's error behind the first text and the line feed. -/
theorem parse_append {file src : String} {f : SchemaFile} (h : parse file src = .ok f)
    (file' more joined : String) :
    ((∃ k, parse joined (src ++ "\n" ++ more) = .ok k) ↔ ∃ g, parse file' more = .ok g) ∧
    (∀ g, parse file' more = .ok g → ∃ k, parse joined (src ++ "\n" ++ more) = .ok k ∧
      k.Same { messages := f.messages ++ g.messages, enums := f.enums ++ g.enums }) ∧
    (∀ stop, parse file' more = .error stop → ∃ e e', stop = .rejected e ∧
      parse joined (src ++ "\n" ++ more) = .error (.rejected e') ∧ e'.text = e.text ∧
      e'.expected = e.expected ∧ e'.hint = e.hint ∧
      e'.span.start.offset = src.length + 1 + e.span.start.offset) := by
  obtain ⟨-, htext⟩ := mem_fileText_of_parse h
  obtain ⟨parts, hmessages, henums, hparts⟩ := exists_parts_lineFeed htext
  have hjoined : (src ++ "\n" ++ more).toList = src.toList ++ ['\n'] ++ more.toList := by
    rw [String.toList_append, String.toList_append]
    rfl
  have hparsed (g : SchemaFile) (hg : parse file' more = .ok g) :
      ∃ k, parse joined (src ++ "\n" ++ more) = .ok k ∧
        k.Same { messages := f.messages ++ g.messages, enums := f.enums ++ g.enums } := by
    have hmem := join_mem_fileText hparts (mem_fileText_of_parse hg).2
    rw [← hjoined, hmessages, henums] at hmem
    exact parse_of_mem_fileText joined hmem rfl
  have hrejected (stop : Stop) (hstop : parse file' more = .error stop) :
      ∃ e e', stop = .rejected e ∧ parse joined (src ++ "\n" ++ more) = .error (.rejected e') ∧
        e'.text = e.text ∧ e'.expected = e.expected ∧ e'.hint = e.hint ∧
        e'.span.start.offset = src.length + 1 + e.span.start.offset := by
    rcases parse_cases file' more with ⟨g, hg, -⟩ | ⟨⟨e, he⟩, -⟩
    · rw [hstop] at hg
      cases hg
    · rw [hstop] at he
      cases he
      obtain ⟨e', he', htext, hexpected, hhint, hoffset⟩ := rejected_behind hparts hstop joined hjoined
      refine ⟨e, e', rfl, he', htext, hexpected, hhint, ?_⟩
      rw [hoffset, List.length_append, String.length_toList]
      rfl
  refine ⟨⟨?_, ?_⟩, hparsed, hrejected⟩
  · rintro ⟨k, hk⟩
    cases hmore : parse file' more with
    | ok g => exact ⟨g, rfl⟩
    | error stop =>
      obtain ⟨e, e', -, he', -⟩ := hrejected stop hmore
      rw [hk] at he'
      cases he'
  · rintro ⟨g, hg⟩
    obtain ⟨k, hk, -⟩ := hparsed g hg
    exact ⟨k, hk⟩

/-- A message, and a comment up to the end of the text. -/
theorem exists_parse_comment :
    ∃ f, parse memoryName "message M \x7b\x7d // end" = .ok f ∧ f.Same { messages := [{ name := "M" }] } := by
  refine parse_of_mem_fileText memoryName ?_ rfl
  have hmembers : [] ∈ gapText * mixedText fieldText enumText [] [] :=
    Language.append_mem_mul nil_mem_gapText ⟨[], rfl, rfl, Language.nil_mem_one⟩
  have hmessage : "message".toList ++ [' '] ++ ("M".toList ++ ' ' :: '\x7b' :: ([] ++ '\x7d' :: [' ']))
      ∈ messageText { name := "M" } :=
    Language.append_mem_mul (Language.append_mem_mul (mem_word.mpr rfl) space_mem_gapText)
      (body_mem (by decide) hmembers space_mem_gapText)
  have hcomment : "// end".toList ∈ openCommentText := ⟨" end".toList, by decide, rfl⟩
  exact le_fileText (le_mixedText_left messageText enumText _)
    (Language.append_mem_mul hmessage (.inr hcomment))

/-- The comment ends at the line feed, and the word behind it is told as if it stood alone. -/
theorem parse_append_comment : ∃ f e e',
    parse memoryName "message M \x7b\x7d // end" = .ok f ∧
    parse memoryName "enumx" = .error (.rejected e) ∧
    parse memoryName ("message M \x7b\x7d // end" ++ "\n" ++ "enumx") = .error (.rejected e') ∧
    e'.text = e.text ∧ e'.expected = ["\"/*\"", "comment", "whitespace"] ∧ e'.hint = e.hint ∧
    e'.span.start.offset = 24 := by
  obtain ⟨e, he, hoffset, hexpected⟩ : ∃ e, parse memoryName "enumx" = .error (.rejected e) ∧
      e.span.start.offset = 4 ∧ e.expected = ["\"/*\"", "comment", "whitespace"] :=
    ⟨_, rfl, rfl, by decide⟩
  obtain ⟨f, hf, -⟩ := exists_parse_comment
  obtain ⟨_, e', hstop, he', htext, hexpected', hhint, hoffset'⟩ :=
    (parse_append hf memoryName "enumx" memoryName).2.2 _ he
  cases hstop
  rw [hexpected] at hexpected'
  rw [hoffset] at hoffset'
  exact ⟨f, e, e', hf, he, he', htext, hexpected', hhint, hoffset'⟩

end MessageIdl.Schema
