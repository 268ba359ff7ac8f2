import MessageIdl.Proofs.Schema.Parsing
import MessageIdl.Proofs.Schema.Places

/-!
# The spans of parsed trees

Each action records the span of what it was given, and rounds go on where the round before ended.  From
the bottom of the tree to its top, the nodes of a parsed tree stand where their spans say.

* `Records`: an action that records the span of its match.
* `On`: a cursor that stands in a given text.
* `rounds_tile`, `members_tile`: the parts that rounds give tile what they take.
* `parse_fileAt`: the places of all nodes of a parsed tree.
-/

namespace MessageIdl.Schema

open MessageIdl.Peg MessageIdl.Source

/-! ### Actions record spans -/

/-- The span of a node. -/
def Node.span : Node → Option Span
  | .enumValue v => v.span
  | .enumeration e => e.span
  | .field f => f.span
  | .message m => m.span
  | .file f => f.span

/-- All that the action builds are nodes with the span that it is given. -/
def Records (act : Action Node) : Prop :=
  ∀ values span v, act.build values span = .ok v → ∃ n, v = .node n ∧ n.span = some span

theorem records_field : Records buildField := by
  intro values span v h
  obtain ⟨_, -, h⟩ := of_bind_ok h
  obtain ⟨_, -, h⟩ := of_bind_ok h
  obtain ⟨_, -, h⟩ := of_bind_ok h
  cases h
  exact ⟨_, rfl, rfl⟩

theorem records_enumValue : Records buildEnumValue := by
  intro values span v h
  obtain ⟨_, -, h⟩ := of_bind_ok h
  cases h
  exact ⟨_, rfl, rfl⟩

theorem records_enumeration : Records buildEnumeration := by
  intro values span v h
  obtain ⟨_, -, h⟩ := of_bind_ok h
  obtain ⟨_, -, h⟩ := of_bind_ok h
  cases h
  exact ⟨_, rfl, rfl⟩

theorem records_message : Records buildMessage := by
  intro values span v h
  obtain ⟨_, -, h⟩ := of_bind_ok h
  obtain ⟨_, -, h⟩ := of_bind_ok h
  obtain ⟨_, -, h⟩ := of_bind_ok h
  cases h
  exact ⟨_, rfl, rfl⟩

theorem records_file : Records buildFile := by
  intro values span v h
  obtain ⟨_, -, h⟩ := of_bind_ok h
  obtain ⟨_, -, h⟩ := of_bind_ok h
  cases h
  exact ⟨_, rfl, rfl⟩

/-- The span of a node that is read by a rule. -/
theorem span_of_yields {lines : LineIndex} {name : String} {act : Action Node} {body : Expr Node}
    {c stop : Cursor} {n : Node} (hf : rules.find name = some (.action act body))
    (hact : Records act) (hy : Yields rules.find lines (.ref name) c (.matched stop (.node n))) :
    n.span = some (lines.span c.offset stop.offset) := by
  cases hy with
  | ref hf' hy =>
    rw [hf] at hf'
    cases hf'
    cases hy with
    | action _ hb =>
      obtain ⟨n', hn, hspan⟩ := hact _ _ _ hb
      cases hn
      exact hspan
    | action_stop _ hu => exact absurd rfl (hu _ _)

/-! ### Cursors in a text -/

/-- The cursor stands in the text, with all that follows it there. -/
def On (text : List Char) (c : Cursor) : Prop :=
  c.offset ≤ text.length ∧ c.rest = text.drop c.offset

namespace On

variable {text : List Char} {c stop : Cursor} {L : Language Char} {file : String}

theorem reaches (h : On text c) (hr : c.Reaches stop) : On text stop := by
  obtain ⟨hle, hrest⟩ := h
  obtain ⟨n, hn, rfl⟩ := hr
  rw [hrest, List.length_drop] at hn
  exact ⟨by rw [Cursor.advance_offset]; omega, by rw [Cursor.advance_rest, hrest, List.drop_drop]; rfl⟩

theorem getElem_offset (h : On text c) {x : Char} {rest : List Char} (hc : c.rest = x :: rest) :
    text[c.offset]? = some x := by
  rw [← Nat.add_zero c.offset, ← List.getElem?_drop, ← h.2, hc]
  rfl

theorem offset_eq_length (h : On text c) (hend : c.rest = []) : c.offset = text.length := by
  obtain ⟨hle, hrest⟩ := h
  have hdrop := List.drop_eq_nil_iff.mp (hrest.symm.trans hend)
  omega

theorem slice (h : On text c) (hr : c.Reaches stop) (hreads : Reads L c.rest stop.rest) :
    Slice L text c.offset stop.offset where
  le := hr.offset_le
  le_length := (h.reaches hr).1
  reads := by rwa [← h.2, ← (h.reaches hr).2]

theorem stands (h : On text c) (hr : c.Reaches stop) {span : Option Span}
    (hspan : span = some ((LineIndex.ofText file text).span c.offset stop.offset)) :
    Stands span c.offset stop.offset := by
  obtain ⟨hstart, hstop⟩ := span_ofText file text h.1 (h.reaches hr).1
  exact ⟨_, hspan, hstart, hstop⟩

end On

/-! ### Rounds -/

section Rounds

variable {text : List Char} {lines : LineIndex} {A B : Type} {P : A → Nat → Nat → Prop}
  {Q : B → Nat → Nat → Prop} {e : Expr Node}

/-- A text that is not empty has some length. -/
theorem Slice.lt {L : Language Char} {i j : Nat} (h : Slice L text i j) (hL : BeginsSolid L) :
    i < j := by
  have hlt := h.reads.length_lt hL.nil_not_mem
  rw [List.length_drop, List.length_drop] at hlt
  omega

/-- What is read begins like all texts of its language. -/
theorem Slice.solid {L : Language Char} {i j : Nat} (h : Slice L text i j) (hL : BeginsSolid L) :
    Solid (text.drop i) := by
  obtain ⟨x, hx, tail, htext, -⟩ := h.reads
  rw [htext]
  exact (hL x hx).2 tail

/-- **The parts that rounds give tile what they take**, by induction on the rounds. -/
theorem rounds_tile {value : A → Value Node} (hlt : ∀ a i j, P a i j → i < j)
    (h : Ensures rules.find lines e
      (fun c stop v => ∃ a, v = value a ∧ (On text c → P a c.offset stop.offset))) :
    Ensures rules.find lines (.repeated 0 e) (fun c stop v =>
      ∃ as : List A, v = .list (as.map value) ∧
        (On text c → Tiles P as c.offset stop.offset)) := by
  refine h.reached.many (fun c => ⟨[], rfl, fun _ => .nil⟩) fun c mid stop v vs hv hvs => ?_
  obtain ⟨⟨a, rfl, ha⟩, hr⟩ := hv
  obtain ⟨as, has, htiles⟩ := hvs
  cases has
  refine ⟨a :: as, rfl, fun hon => ?_⟩
  have ha := ha hon
  exact .cons ha (hlt a _ _ ha) (htiles (hon.reaches hr))

/-- Rounds of a choice between two kinds of parts. -/
theorem members_tile {nodeA : A → Node} {nodeB : B → Node} {ruleA ruleB : Expr Node} {name : String}
    (hf : rules.find name = some (eitherRule ruleA ruleB)) (hltA : ∀ a i j, P a i j → i < j)
    (hltB : ∀ b i j, Q b i j → i < j)
    (hA : Ensures rules.find lines ruleA
      (fun c stop v => ∃ a, v = .node (nodeA a) ∧ (On text c → P a c.offset stop.offset)))
    (hB : Ensures rules.find lines ruleB
      (fun c stop v => ∃ b, v = .node (nodeB b) ∧ (On text c → Q b c.offset stop.offset))) :
    Ensures rules.find lines (.repeated 0 (.ref name)) (fun c stop v =>
      ∃ parts : List (A ⊕ B), v = .list (parts.map (eitherNode nodeA nodeB)) ∧
        (On text c → MixedTiles P Q (parts.filterMap Sum.getLeft?)
          (parts.filterMap Sum.getRight?) c.offset stop.offset)) := by
  have heither : Ensures rules.find lines (.ref name) (fun c stop v =>
      ∃ p, v = eitherNode nodeA nodeB p ∧ (On text c → Sum.elim P Q p c.offset stop.offset)) := by
    refine .ref hf ((eitherRule_stands hA hB).imp fun c stop v _ h => ?_)
    obtain ⟨p, rfl, hp⟩ := h
    refine ⟨p, rfl, ?_⟩
    cases p with
    | inl a => exact hp
    | inr b => exact hp
  have hlt : ∀ p i j, Sum.elim P Q p i j → i < j := by
    rintro (a | b) i j hp
    · exact hltA a i j hp
    · exact hltB b i j hp
  refine (rounds_tile hlt heither).imp fun c stop v _ h => ?_
  obtain ⟨parts, rfl, htiles⟩ := h
  exact ⟨parts, rfl, fun hon => ⟨parts, rfl, rfl, htiles hon⟩⟩

/-- What stands between the braces of a node that begins at `i`. -/
theorem BodyStands.body {s : String} {c a b stop : Cursor} {T : Nat → Nat → Prop} {i : Nat}
    (h : BodyStands s c a b stop) (hon : On text c) (hi : i < c.offset) (hab : a.Reaches b)
    (hT : On text a → T a.offset b.offset)
    (hsolid : T a.offset b.offset → Solid (text.drop b.offset) → Solid (text.drop a.offset)) :
    Body text T i stop.offset := by
  obtain ⟨c₁, c₂, c₃, c₆, ⟨-, -, r₁⟩, ⟨-, r₂⟩, ⟨h₃, r₃⟩, ⟨h₄, r₄⟩, ⟨h₆, r₆⟩, ⟨-, r₇⟩⟩ := h
  have hbrace := r₁.trans r₂
  have on₂ := hon.reaches hbrace
  have on₃ := on₂.reaches r₃
  have ona := on₃.reaches r₄
  have onb := ona.reaches hab
  have hparts := hT ona
  have hinside : c₃.offset = c₂.offset + 1 := by rw [r₃.eq_advance (u := ['\x7b']) h₃]; rfl
  have hafter : c₆.offset = b.offset + 1 := by rw [r₆.eq_advance (u := ['\x7d']) h₆]; rfl
  have hclose : Solid (text.drop b.offset) := by
    rw [← onb.2, h₆]
    exact closeBrace_solid c₆.rest
  have hle := hbrace.offset_le
  have hle' := r₇.offset_le
  refine ⟨c₂.offset, a.offset, b.offset, by omega, on₂.getElem_offset h₃, ⟨?_, hsolid hparts hclose⟩,
    hparts, onb.getElem_offset h₆, by omega⟩
  exact hinside ▸ on₃.slice r₄ h₄

end Rounds

/-! ### The nodes of a tree -/

section Nodes

variable {file : String} {text : List Char}

/-- A node that is read by a rule of its own stands where its text does. -/
theorem place_of_yields {name : String} {act : Action Node} {body : Expr Node} {c stop : Cursor}
    {n : Node} {L : Language Char} (hf : rules.find name = some (.action act body))
    (hact : Records act)
    (hy : Yields rules.find (LineIndex.ofText file text) (.ref name) c (.matched stop (.node n)))
    (hreads : Reads L c.rest stop.rest) (hon : On text c) :
    Stands n.span c.offset stop.offset ∧ Slice L text c.offset stop.offset :=
  ⟨hon.stands hy.reaches (span_of_yields hf hact hy), hon.slice hy.reaches hreads⟩

theorem field_at : Ensures rules.find (LineIndex.ofText file text) (.ref "FieldDefinition")
    (fun c stop v => ∃ f, v = .node (.field f) ∧
      (On text c → FieldAt text f c.offset stop.offset)) := by
  refine field_ensures.imp fun c stop v hy h => ?_
  obtain ⟨f, rfl, hreads⟩ := h
  exact ⟨f, rfl, place_of_yields find_fieldRule records_field hy hreads⟩

theorem value_at : Ensures rules.find (LineIndex.ofText file text) (.ref "EnumValue")
    (fun c stop v => ∃ a, v = .node (.enumValue a) ∧
      (On text c → ValueAt text a c.offset stop.offset)) := by
  refine value_ensures.imp fun c stop v hy h => ?_
  obtain ⟨a, rfl, hreads⟩ := h
  exact ⟨a, rfl, place_of_yields find_enumValueRule records_enumValue hy hreads⟩

theorem values_tile :
    Ensures rules.find (LineIndex.ofText file text) (.repeated 1 (.ref "EnumValue"))
      (fun c stop v => ∃ vs : List EnumValue, v = .list (vs.map fun a => .node (.enumValue a)) ∧
        (On text c → Tiles (ValueAt text) vs c.offset stop.offset)) :=
  (rounds_tile (fun a _ _ h => h.2.lt (beginsSolid_valueText a)) value_at).many1.imp
    fun _ _ _ _ h => h.1

/-- A body begins behind the word in front of it. -/
theorem offset_lt_of_word {c c₁ : Cursor} {w : String} (hc : c.rest = w.toList ++ c₁.rest)
    (hr : c.Reaches c₁) (hw : w.toList ≠ []) : c.offset < c₁.offset := by
  have hpos := List.length_pos_iff.mpr hw
  rw [hr.eq_advance hc, Cursor.advance_offset]
  omega

theorem enum_body : Ensures rules.find (LineIndex.ofText file text) (.ref "EnumDefinition")
    (fun c stop v => ∃ e, v = .node (.enumeration e) ∧
      (On text c → Body text (Tiles (ValueAt text) e.values) c.offset stop.offset)) := by
  refine .ref find_enumRule (EnsuresRow.action ((Ensures.literal _).reached.row_cons
    (gap1_ensures.reached.row_cons (bodyRow_stands values_tile.reached))) fun c stop xs h => ?_)
  obtain ⟨c₁, _, _, ⟨⟨h₁, -⟩, r₁⟩, ⟨c₂, _, _, ⟨-, r₂⟩, ⟨s, _, a, b, hvalues, hbody, ⟨vs, rfl, hvs⟩, hab⟩,
    rfl⟩, rfl⟩ := h
  refine ⟨_, buildEnumeration_eq hvalues _ _ _, _, rfl, fun hon => ?_⟩
  have hlt := offset_lt_of_word h₁ r₁ (by decide)
  have hle := r₂.offset_le
  refine hbody.body (hon.reaches (r₁.trans r₂)) (by omega) hab hvs fun htiles => ?_
  exact htiles.solid fun a _ _ ha => ha.2.solid (beginsSolid_valueText a)

theorem enum_at : Ensures rules.find (LineIndex.ofText file text) (.ref "EnumDefinition")
    (fun c stop v => ∃ e, v = .node (.enumeration e) ∧
      (On text c → EnumAt text e c.offset stop.offset)) := by
  refine enum_body.imp fun c stop v hy h => ?_
  obtain ⟨e, rfl, hbody⟩ := h
  obtain ⟨e', he, hreads⟩ := enum_ensures.matched hy
  cases he
  refine ⟨e, rfl, fun hon => ?_⟩
  obtain ⟨hstands, hslice⟩ := place_of_yields find_enumRule records_enumeration hy hreads hon
  exact ⟨hstands, hslice, hbody hon⟩

theorem fields_and_enums_tile :
    Ensures rules.find (LineIndex.ofText file text) (.repeated 0 (.ref "MessageInternal"))
      (fun c stop v => ∃ parts : List (Field ⊕ Enumeration),
        v = .list (parts.map (eitherNode .field .enumeration)) ∧
          (On text c → MixedTiles (FieldAt text) (EnumAt text) (parts.filterMap Sum.getLeft?)
            (parts.filterMap Sum.getRight?) c.offset stop.offset)) :=
  members_tile find_memberRule (fun f _ _ h => h.2.lt (beginsSolid_fieldText f))
    (fun e _ _ h => h.2.1.lt (beginsSolid_enumText e)) field_at enum_at

theorem message_body : Ensures rules.find (LineIndex.ofText file text) (.ref "MessageDefinition")
    (fun c stop v => ∃ m, v = .node (.message m) ∧ (On text c →
      Body text (MixedTiles (FieldAt text) (EnumAt text) m.fields m.enums) c.offset stop.offset)) := by
  refine .ref find_messageRule (EnsuresRow.action ((Ensures.literal _).reached.row_cons
    (gap_ensures.reached.row_cons (bodyRow_stands fields_and_enums_tile.reached))) fun c stop xs h => ?_)
  obtain ⟨c₁, _, _, ⟨⟨h₁, -⟩, r₁⟩, ⟨c₂, _, _, ⟨-, r₂⟩, ⟨s, _, a, b, hvalues, hbody,
    ⟨parts, rfl, hparts⟩, hab⟩, rfl⟩, rfl⟩ := h
  refine ⟨_, buildMessage_eq hvalues _ _ _, _, rfl, fun hon => ?_⟩
  have hlt := offset_lt_of_word h₁ r₁ (by decide)
  have hle := r₂.offset_le
  refine hbody.body (hon.reaches (r₁.trans r₂)) (by omega) hab hparts fun htiles => ?_
  exact htiles.solid (fun f _ _ hf => hf.2.solid (beginsSolid_fieldText f))
    fun e _ _ he => he.2.1.solid (beginsSolid_enumText e)

theorem message_at : Ensures rules.find (LineIndex.ofText file text) (.ref "MessageDefinition")
    (fun c stop v => ∃ m, v = .node (.message m) ∧
      (On text c → MessageAt text m c.offset stop.offset)) := by
  refine message_body.imp fun c stop v hy h => ?_
  obtain ⟨m, rfl, hbody⟩ := h
  obtain ⟨m', hm, hreads⟩ := message_ensures.matched hy
  cases hm
  refine ⟨m, rfl, fun hon => ?_⟩
  obtain ⟨hstands, hslice⟩ := place_of_yields find_messageRule records_message hy hreads hon
  exact ⟨hstands, hslice, hbody hon⟩

theorem declarations_tile :
    Ensures rules.find (LineIndex.ofText file text) (.repeated 0 (.ref "MessageOrEnum"))
      (fun c stop v => ∃ parts : List (Message ⊕ Enumeration),
        v = .list (parts.map (eitherNode .message .enumeration)) ∧
          (On text c → MixedTiles (MessageAt text) (EnumAt text) (parts.filterMap Sum.getLeft?)
            (parts.filterMap Sum.getRight?) c.offset stop.offset)) :=
  members_tile find_declarationRule (fun m _ _ h => h.2.1.lt (beginsSolid_messageText m))
    (fun e _ _ h => h.2.1.lt (beginsSolid_enumText e)) message_at enum_at

theorem file_tiles : Ensures rules.find (LineIndex.ofText file text) (.ref "ProtocolFile")
    (fun c _ v => ∃ f, v = .node (.file f) ∧ (On text c → ∃ i, GapEnds text c.offset i ∧
      MixedTiles (MessageAt text) (EnumAt text) f.messages f.enums i text.length)) := by
  refine .ref find_fileRule (EnsuresRow.action (gap_ensures.reached.row_cons
    (declarations_tile.reached.row_cons (Ensures.endOfInput.row_cons .nil))) fun c stop xs h => ?_)
  obtain ⟨c₁, x₀, _, ⟨h₁, r₁⟩, ⟨c₂, _, _, ⟨⟨parts, rfl, hparts⟩, r₂⟩, ⟨c₃, x₂, _, ⟨hend, rfl, -⟩,
    ⟨rfl, rfl⟩, rfl⟩, rfl⟩, rfl⟩ := h
  refine ⟨_, buildFile_eq parts x₀ x₂ _, _, rfl, fun hon => ⟨c₁.offset, ⟨hon.slice r₁ h₁, ?_⟩, ?_⟩⟩
  · refine (hparts (hon.reaches r₁)).solid (fun m _ _ hm => hm.2.1.solid (beginsSolid_messageText m))
      (fun e _ _ he => he.2.1.solid (beginsSolid_enumText e)) ?_
    rw [← (hon.reaches (r₁.trans r₂)).2, hend]
    exact solid_nil
  · rw [← (hon.reaches (r₁.trans r₂)).offset_eq_length hend]
    exact hparts (hon.reaches r₁)

end Nodes

/-- **The nodes of a parsed tree stand where their spans say**, and tile the text. -/
theorem parse_fileAt {file src : String} {f : SchemaFile} (h : parse file src = .ok f) :
    FileAt src.toList f := by
  obtain ⟨stop, f', hf, hy⟩ := (parse_outcome file src).resolve_right fun hrejected => by
    obtain ⟨⟨e, he⟩, -⟩ := hrejected
    rw [h] at he
    cases he
  cases h.symm.trans hf
  have hon : On src.toList ⟨0, src.toList⟩ := ⟨Nat.zero_le _, rfl⟩
  obtain ⟨f', hf, htiles⟩ := file_tiles.matched hy
  cases hf
  obtain ⟨f', hf, -, hstop, -⟩ := file_ensures.matched hy
  cases hf
  refine ⟨?_, htiles hon⟩
  rw [← (hon.reaches hy.reaches).offset_eq_length hstop]
  exact hon.stands hy.reaches (span_of_yields find_fileRule records_file hy)

end MessageIdl.Schema
