import MessageIdl.Proofs.Schema.Bodies

/-!
# Enumerations, messages and files

* `enum_ensures`, `takes_enum`: the rule of enumerations reads their texts.
* `message_ensures`, `takes_message`: the rule of messages.
* `file_ensures`, `takes_file`: the rule of files.
* `enumValues_map`, `splitMembers_map`, `splitDeclarations_map`: the actions drop no node.
-/

namespace MessageIdl.Schema

open MessageIdl.Peg MessageIdl.Source
open scoped Computability

variable {lines : LineIndex} {text rest : List Char}

/-! ### What the actions make of nodes -/

theorem enumValues_map (vs : List EnumValue) :
    enumValues (vs.map fun v => .node (.enumValue v)) = vs := by
  rw [enumValues, List.filterMap_map]
  exact List.filterMap_some

/-- Fields and enumerations are parted, and none is dropped. -/
theorem splitMembers_map (parts : List (Field ⊕ Enumeration)) :
    splitMembers (parts.map (eitherNode .field .enumeration))
      = .ok (parts.filterMap Sum.getLeft?, parts.filterMap Sum.getRight?) := by
  induction parts with
  | nil => rfl
  | cons p parts ih =>
    rw [List.map_cons, splitMembers, ih]
    cases p <;> rfl

/-- Messages and enumerations are parted, and none is dropped. -/
theorem splitDeclarations_map (parts : List (Message ⊕ Enumeration)) :
    splitDeclarations (parts.map (eitherNode .message .enumeration))
      = .ok (parts.filterMap Sum.getLeft?, parts.filterMap Sum.getRight?) := by
  induction parts with
  | nil => rfl
  | cons p parts ih =>
    rw [List.map_cons, splitDeclarations, ih]
    cases p <;> rfl

theorem buildEnumeration_eq {s : String} {vs : List EnumValue} {xs : List (Value Node)}
    (h : BodyValues s (· = .list (vs.map fun a => .node (.enumValue a))) xs) (x₀ x₁ : Value Node)
    (span : Span) :
    buildEnumeration.build (x₀ :: x₁ :: xs) span
      = .ok (.node (.enumeration { name := s, values := vs, span })) := by
  obtain ⟨v, _, _, _, _, _, rfl, rfl⟩ := h
  show Except.ok (Value.node (Node.enumeration { name := s, values := enumValues _, span })) = _
  rw [enumValues_map]

theorem buildMessage_eq {s : String} {parts : List (Field ⊕ Enumeration)} {xs : List (Value Node)}
    (h : BodyValues s (· = .list (parts.map (eitherNode .field .enumeration))) xs)
    (x₀ x₁ : Value Node) (span : Span) :
    buildMessage.build (x₀ :: x₁ :: xs) span
      = .ok (.node (.message
        { name := s, fields := parts.filterMap Sum.getLeft?, enums := parts.filterMap Sum.getRight?,
          span })) := by
  obtain ⟨v, _, _, _, _, _, rfl, rfl⟩ := h
  show (splitMembers _ >>= fun members => _) = _
  rw [splitMembers_map]
  rfl

theorem buildFile_eq (parts : List (Message ⊕ Enumeration)) (x₀ x₂ : Value Node) (span : Span) :
    buildFile.build [x₀, .list (parts.map (eitherNode .message .enumeration)), x₂] span
      = .ok (.node (.file
        { messages := parts.filterMap Sum.getLeft?, enums := parts.filterMap Sum.getRight?,
          span })) := by
  show (splitDeclarations _ >>= fun members => _) = _
  rw [splitDeclarations_map]
  rfl

/-! ### Enumerations -/

theorem find_enumRule : rules.find "EnumDefinition" = some enumRule.body := rfl

theorem valueItems_ensures : Ensures rules.find lines (.repeated 1 (.ref "EnumValue"))
    (fun c stop v => ∃ vs : List EnumValue, v = .list (vs.map fun a => .node (.enumValue a)) ∧
      Reads (valuesText vs) c.rest stop.rest) := by
  refine (ensures_items value_ensures).many1.imp fun c stop v _ h => ?_
  obtain ⟨⟨vs, rfl, hr⟩, hne⟩ := h
  refine ⟨vs, rfl, hr.mono fun x hx => ⟨?_, hx⟩⟩
  rintro rfl
  exact hne rfl

theorem enum_ensures : Ensures rules.find lines (.ref "EnumDefinition")
    (fun c stop v => ∃ e, v = .node (.enumeration e) ∧ Reads (enumText e) c.rest stop.rest) := by
  refine .ref find_enumRule (EnsuresRow.action ((Ensures.literal _).row_cons
    (gap1_ensures.row_cons (bodyRow_ensures valueItems_ensures))) fun c stop xs h => ?_)
  obtain ⟨c₁, _, _, ⟨h₁, -⟩, ⟨c₂, _, _, hgap1, ⟨s, vs, hvalues, h₃⟩, rfl⟩, rfl⟩ := h
  refine ⟨_, buildEnumeration_eq hvalues _ _ _, _, rfl, ?_⟩
  exact ((Reads.of_word h₁).mul (hgap1 (body_ne_nil h₃))).mul h₃

theorem takes_valueItems {vs : List EnumValue} {u : List Char}
    (h : Reads (valuesText vs) text ('\x7d' :: u)) (htext : Solid text) :
    Takes rules.find lines (.repeated 1 (.ref "EnumValue")) text ('\x7d' :: u)
      (fun v => ∃ vs' : List EnumValue, v = .list (vs'.map fun a => .node (.enumValue a)) ∧
        vs'.map EnumValue.bare = vs.map EnumValue.bare) := by
  obtain ⟨x, ⟨hne, hx⟩, tail, ht, hl⟩ := h
  have hrefuse : Refuses rules.find lines (.ref "EnumValue") ('\x7d' :: u) :=
    refuses_value (closeBrace_ends u)
  have hread : Reads (vs.map valueText).prod text ('\x7d' :: u) := ⟨x, hx, tail, ht, hl⟩
  have hitems := takes_items beginsSolid_valueText (fun a t r => takes_value) hrefuse
    (closeBrace_solid u) vs text hread htext
  refine hitems.many1 fun v hv => ?_
  obtain ⟨vs', rfl, hbare⟩ := hv
  intro hnil
  cases vs' with
  | nil => exact hne (List.map_eq_nil_iff.mp hbare.symm)
  | cons a vs' => cases hnil

theorem valuesText_begins {vs : List EnumValue} :
    ∀ x ∈ valuesText vs, x ≠ [] → ∀ t, Solid (x ++ t) := by
  rintro x ⟨-, hx⟩
  exact BeginsSolid.prod beginsSolid_valueText vs x hx

theorem enum_isIdentifier : isIdentifier "enum" = true := by decide

/-- **A text of an enumeration is taken** up to where the gap behind it ends. -/
theorem takes_enum {e : Enumeration} (h : Reads (enumText e) text rest) (hrest : Solid rest) :
    Takes rules.find lines (.ref "EnumDefinition") text rest
      (fun v => ∃ e', v = .node (.enumeration e') ∧ e'.bare = e.bare) := by
  rw [enumText, mul_assoc] at h
  obtain ⟨_, rfl, t₁, rfl, h₁⟩ := h.uncons
  obtain ⟨g, hg, t, rfl, hbody⟩ := h₁.uncons
  have hword : Takes rules.find lines (terminal .enum) ("enum".toList ++ (g ++ t)) (g ++ t) _ :=
    Takes.literal _ _
  have hgap1 : Takes rules.find lines gap1 (g ++ t) t _ :=
    takes_gap1 (Reads.of_mem hg t) (solid_body hbody)
  have hbodyRow : TakesRow rules.find lines _ t rest _ :=
    takes_bodyRow valuesText_begins (fun t u => takes_valueItems) hbody hrest
  have hrow := hword.row_cons (hgap1.row_cons hbodyRow)
  refine .ref find_enumRule (hrow.action fun xs span hxs => ?_)
  obtain ⟨x₀, _, -, ⟨x₁, xs, -, ⟨v, y₁, y₂, y₃, y₅, y₆, rfl, vs, rfl, hbare⟩, rfl⟩, rfl⟩ := hxs
  have hvalues : BodyValues e.name (· = .list (vs.map fun a => .node (.enumValue a))) _ :=
    ⟨_, y₁, y₂, y₃, y₅, y₆, rfl, rfl⟩
  refine ⟨_, buildEnumeration_eq hvalues x₀ x₁ span, _, rfl, ?_⟩
  rw [Enumeration.bare, Enumeration.bare, hbare]

/-- No enumeration begins in front of a text that does not begin with its word. -/
theorem refuses_enum (h : ¬ "enum".toList <+: text) :
    Refuses rules.find lines (.ref "EnumDefinition") text :=
  .ref find_enumRule (Refuses.row_head (.literal h)).action

theorem beginsSolid_enumText (e : Enumeration) : BeginsSolid (enumText e) :=
  ((beginsSolid_word enum_isIdentifier).mul _).mul _

/-- No text of an enumeration is one of a field. -/
theorem refuses_field_of_enum {e : Enumeration} (h : Reads (enumText e) text rest) :
    Refuses rules.find lines (.ref "FieldDefinition") text := by
  simp only [enumText, bodyText, mul_assoc] at h
  obtain ⟨_, rfl, t₁, rfl, h₁⟩ := h.uncons
  obtain ⟨g₁, hg₁, t₂, rfl, h₂⟩ := h₁.uncons
  obtain ⟨_, ⟨hname, rfl⟩, t₃, rfl, h₃⟩ := h₂.uncons
  obtain ⟨g₂, hg₂, t₄, rfl, h₄⟩ := h₃.uncons
  obtain ⟨_, rfl, t, rfl, -⟩ := h₄.uncons
  exact refuses_field_enum hg₁ hname hg₂ t

/-! ### Messages -/

theorem find_memberRule : rules.find "MessageInternal"
    = some (eitherRule (.ref "FieldDefinition") (.ref "EnumDefinition")) := rfl

theorem find_messageRule : rules.find "MessageDefinition" = some messageRule.body := rfl

theorem memberItems_ensures : Ensures rules.find lines (.repeated 0 (.ref "MessageInternal"))
    (fun c stop v => ∃ parts : List (Field ⊕ Enumeration),
      v = .list (parts.map (eitherNode .field .enumeration)) ∧
        Reads (mixedText fieldText enumText (parts.filterMap Sum.getLeft?)
          (parts.filterMap Sum.getRight?)) c.rest stop.rest) :=
  mixed_ensures (.ref find_memberRule (eitherRule_ensures field_ensures enum_ensures))

theorem message_ensures : Ensures rules.find lines (.ref "MessageDefinition")
    (fun c stop v => ∃ m, v = .node (.message m) ∧ Reads (messageText m) c.rest stop.rest) := by
  refine .ref find_messageRule (EnsuresRow.action ((Ensures.literal _).row_cons
    (gap_ensures.row_cons (bodyRow_ensures memberItems_ensures))) fun c stop xs h => ?_)
  obtain ⟨c₁, _, _, ⟨h₁, -⟩, ⟨c₂, _, _, h₂, ⟨s, parts, hvalues, h₃⟩, rfl⟩, rfl⟩ := h
  refine ⟨_, buildMessage_eq hvalues _ _ _, _, rfl, ?_⟩
  exact ((Reads.of_word h₁).mul h₂).mul h₃

theorem takes_memberItems {fields : List Field} {enums : List Enumeration} {u : List Char}
    (h : Reads (mixedText fieldText enumText fields enums) text ('\x7d' :: u))
    (htext : Solid text) :
    Takes rules.find lines (.repeated 0 (.ref "MessageInternal")) text ('\x7d' :: u)
      (MixedValue .field .enumeration Field.bare Enumeration.bare fields enums) := by
  have hnoEnum := not_prefix_of_ends enum_isIdentifier (closeBrace_ends u)
  have hrefuse : Refuses rules.find lines (.ref "MessageInternal") ('\x7d' :: u) :=
    .ref find_memberRule
      (refuses_either (refuses_field (closeBrace_ends u)) (refuses_enum hnoEnum))
  refine takes_mixed beginsSolid_fieldText beginsSolid_enumText (fun p t r hp hr => ?_) hrefuse
    (closeBrace_solid u) h htext
  exact .ref find_memberRule (takes_either (fun f t r => takes_field) (fun e t r => takes_enum)
    (fun e t r => refuses_field_of_enum) p t r hp hr)

theorem message_isIdentifier : isIdentifier "message" = true := by decide

/-- **A text of a message is taken** up to where the gap behind it ends. -/
theorem takes_message {m : Message} (h : Reads (messageText m) text rest) (hrest : Solid rest) :
    Takes rules.find lines (.ref "MessageDefinition") text rest
      (fun v => ∃ m', v = .node (.message m') ∧ m'.bare = m.bare) := by
  rw [messageText, mul_assoc] at h
  obtain ⟨_, rfl, t₁, rfl, h₁⟩ := h.uncons
  obtain ⟨g, hg, t, rfl, hbody⟩ := h₁.uncons
  have hword : Takes rules.find lines (terminal .message) ("message".toList ++ (g ++ t)) (g ++ t) _ :=
    Takes.literal _ _
  have hgap : Takes rules.find lines gap (g ++ t) t _ :=
    takes_gap (Reads.of_mem hg t) (solid_body hbody)
  have hbodyRow : TakesRow rules.find lines _ t rest _ :=
    takes_bodyRow (mixedText_begins beginsSolid_fieldText beginsSolid_enumText)
      (fun t u => takes_memberItems) hbody hrest
  have hrow := hword.row_cons (hgap.row_cons hbodyRow)
  refine .ref find_messageRule (hrow.action fun xs span hxs => ?_)
  obtain ⟨x₀, _, -, ⟨x₁, xs, -, ⟨v, y₁, y₂, y₃, y₅, y₆, rfl, parts, rfl, hfields, henums⟩, rfl⟩,
    rfl⟩ := hxs
  have hvalues : BodyValues m.name (· = .list (parts.map (eitherNode .field .enumeration))) _ :=
    ⟨_, y₁, y₂, y₃, y₅, y₆, rfl, rfl⟩
  refine ⟨_, buildMessage_eq hvalues x₀ x₁ span, _, rfl, ?_⟩
  rw [Message.bare, Message.bare, hfields, henums]

theorem refuses_message (h : ¬ "message".toList <+: text) :
    Refuses rules.find lines (.ref "MessageDefinition") text :=
  .ref find_messageRule (Refuses.row_head (.literal h)).action

theorem beginsSolid_messageText (m : Message) : BeginsSolid (messageText m) :=
  ((beginsSolid_word message_isIdentifier).mul _).mul _

/-- No text of an enumeration begins with the word of messages. -/
theorem not_message_of_enum {e : Enumeration} (h : Reads (enumText e) text rest) :
    ¬ "message".toList <+: text := by
  rw [enumText, mul_assoc] at h
  obtain ⟨_, rfl, t, rfl, -⟩ := h.uncons
  rintro ⟨u, hu⟩
  exact absurd (List.cons.inj hu).1 (by decide)

/-- No text of an enumeration is one of a message. -/
theorem refuses_message_of_enum {e : Enumeration} (h : Reads (enumText e) text rest) :
    Refuses rules.find lines (.ref "MessageDefinition") text :=
  refuses_message (not_message_of_enum h)

/-! ### Files -/

theorem find_declarationRule : rules.find "MessageOrEnum"
    = some (eitherRule (.ref "MessageDefinition") (.ref "EnumDefinition")) := rfl

theorem find_fileRule : rules.find "ProtocolFile" = some fileRule.body := rfl

theorem Reads.mem_of_nil {L : Language Char} (h : Reads L text []) :
    text ∈ L * (1 + openCommentText) := by
  obtain ⟨x, hx, tail, rfl, hl⟩ := h
  refine Language.append_mem_mul hx ?_
  rcases hl with rfl | ⟨hopen, -⟩
  · exact .inl Language.nil_mem_one
  · exact .inr hopen

theorem Reads.of_mem_mul {L : Language Char} (h : text ∈ L * (1 + openCommentText)) :
    Reads L text [] := by
  obtain ⟨x, hx, tail, htail, rfl⟩ := Language.mem_mul.mp h
  refine ⟨x, hx, tail, rfl, ?_⟩
  rcases htail with htail | hopen
  · exact .inl htail
  · exact .inr ⟨hopen, rfl⟩

theorem declarationItems_ensures : Ensures rules.find lines (.repeated 0 (.ref "MessageOrEnum"))
    (fun c stop v => ∃ parts : List (Message ⊕ Enumeration),
      v = .list (parts.map (eitherNode .message .enumeration)) ∧
        Reads (mixedText messageText enumText (parts.filterMap Sum.getLeft?)
          (parts.filterMap Sum.getRight?)) c.rest stop.rest) :=
  mixed_ensures (.ref find_declarationRule (eitherRule_ensures message_ensures enum_ensures))

/-- A file is only matched up to its end, and its path is not set. -/
theorem file_ensures : Ensures rules.find lines (.ref "ProtocolFile")
    (fun c stop v => ∃ f, v = .node (.file f) ∧ f.path = none ∧ stop.rest = [] ∧
      c.rest ∈ fileText f) := by
  refine .ref find_fileRule (EnsuresRow.action (gap_ensures.row_cons
    (declarationItems_ensures.row_cons (Ensures.endOfInput.row_cons .nil))) fun c stop xs h => ?_)
  obtain ⟨c₁, x₀, _, h₁, ⟨c₂, _, _, ⟨parts, rfl, h₂⟩, ⟨c₃, x₂, _, ⟨hend, rfl, -⟩, ⟨rfl, rfl⟩, rfl⟩,
    rfl⟩, rfl⟩ := h
  refine ⟨_, buildFile_eq parts x₀ x₂ _, _, rfl, rfl, hend, ?_⟩
  rw [hend] at h₂
  exact (h₁.mul h₂).mem_of_nil

theorem takes_declarationItems {messages : List Message} {enums : List Enumeration}
    (h : Reads (mixedText messageText enumText messages enums) text []) (htext : Solid text) :
    Takes rules.find lines (.repeated 0 (.ref "MessageOrEnum")) text []
      (MixedValue .message .enumeration Message.bare Enumeration.bare messages enums) := by
  have hrefuse : Refuses rules.find lines (.ref "MessageOrEnum") [] :=
    .ref find_declarationRule (refuses_either (refuses_message (by decide))
      (refuses_enum (by decide)))
  refine takes_mixed beginsSolid_messageText beginsSolid_enumText (fun p t r hp hr => ?_) hrefuse
    solid_nil h htext
  exact .ref find_declarationRule (takes_either (fun m t r => takes_message)
    (fun e t r => takes_enum) (fun e t r => refuses_message_of_enum) p t r hp hr)

/-- **A text of a file is taken** as a whole. -/
theorem takes_file {f : SchemaFile} (h : text ∈ fileText f) :
    Takes rules.find lines (.ref "ProtocolFile") text []
      (fun v => ∃ f', v = .node (.file f') ∧ f'.path = none ∧
        f'.messages.map Message.bare = f.messages.map Message.bare ∧
        f'.enums.map Enumeration.bare = f.enums.map Enumeration.bare) := by
  obtain ⟨mid, hgap, hitems, hmid⟩ := (Reads.of_mem_mul h).split solid_nil
    (mixedText_begins beginsSolid_messageText beginsSolid_enumText)
  have hhead : Takes rules.find lines gap text mid _ := takes_gap hgap hmid
  have hend : TakesRow rules.find lines [.endOfInput] [] [] _ := Takes.endOfInput.row_cons .nil
  have hrow := hhead.row_cons ((takes_declarationItems hitems hmid).row_cons hend)
  refine .ref find_fileRule (hrow.action fun xs span hxs => ?_)
  obtain ⟨x₀, _, -, ⟨_, _, ⟨parts, rfl, hmessages, henums⟩, ⟨x₂, _, -, rfl, rfl⟩, rfl⟩, rfl⟩ := hxs
  exact ⟨_, buildFile_eq parts x₀ x₂ span, _, rfl, rfl, hmessages, henums⟩

end MessageIdl.Schema
