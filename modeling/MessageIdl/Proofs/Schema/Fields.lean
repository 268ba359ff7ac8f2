import MessageIdl.Proofs.Schema.Terminals

/-!
# Fields and values

* `field_ensures`, `takes_field`: the rule of fields reads the texts of fields.
* `refuses_field`: where it does not match.
* `value_ensures`, `takes_value`: the rule of values reads the texts of values.
-/

namespace MessageIdl.Schema

open MessageIdl.Peg MessageIdl.Source
open scoped Computability

variable {lines : LineIndex} {text rest : List Char}

/-! ### What no gap begins like -/

/-- Characters of a name begin like no gap. -/
theorem solid_append {x : List Char} (hne : x ≠ []) (hx : ∀ c ∈ x, isNamePart c = true)
    (t : List Char) : Solid (x ++ t) := by
  cases x with
  | nil => exact absurd rfl hne
  | cons c x => exact solid_cons (solid_of_isNamePart (hx c List.mem_cons_self))

theorem solid_name {s : String} (hs : isIdentifier s = true) (t : List Char) :
    Solid (s.toList ++ t) :=
  solid_append (isIdentifier_ne_nil hs) (isNamePart_of_mem hs) t

theorem solid_digits {d : List Char} (hd : d ∈ digitsText) (t : List Char) : Solid (d ++ t) :=
  solid_append hd.1 (fun c hc => isNamePart_of_isDigit (hd.2 c hc)) t

/-! ### The modifier -/

theorem find_repeatedRule : rules.find "Repeated" = some repeatedRule.body := rfl

theorem repeated_ensures : Ensures rules.find lines (.ref "Repeated")
    (fun c stop v => v = .flag ∧ (stop.rest ≠ [] → Reads (modifierText true) c.rest stop.rest)) := by
  refine .ref find_repeatedRule
    (((Ensures.literal _).row_cons (gap1_ensures.row_cons .nil)).action fun c stop xs h => ?_)
  obtain ⟨c₁, _, _, ⟨h₁, -⟩, ⟨c₂, _, _, h₂, ⟨rfl, -⟩, -⟩, -⟩ := h
  exact ⟨.flag, rfl, rfl, fun hne => (Reads.of_word h₁).mul (h₂ hne)⟩

theorem takes_repeated (h : Reads gap1Text text rest) (hrest : Solid rest) :
    Takes rules.find lines (.ref "Repeated") ("repeated".toList ++ text) rest (· = .flag) := by
  have hword : Takes rules.find lines (terminal .repeated) ("repeated".toList ++ text) text _ :=
    Takes.literal _ _
  exact .ref find_repeatedRule
    ((hword.row_cons ((takes_gap1 h hrest).row_cons .nil)).action fun _ _ _ => ⟨.flag, rfl, rfl⟩)

theorem refuses_repeated (h : ¬ "repeated".toList <+: text) :
    Refuses rules.find lines (.ref "Repeated") text :=
  .ref find_repeatedRule (Refuses.row_head (.literal h)).action

/-- The word of the modifier is none if the name goes on. -/
theorem refuses_repeated_append (h : Solid text) :
    Refuses rules.find lines (.ref "Repeated") ("repeated".toList ++ text) := by
  have hword : Takes rules.find lines (terminal .repeated) ("repeated".toList ++ text) text _ :=
    Takes.literal _ _
  exact .ref find_repeatedRule
    (Refuses.row_tail hword (Refuses.row_head (Refuses.many1 (refuses_unit h)))).action

theorem repeated_isIdentifier : isIdentifier "repeated" = true := by decide

/-- In front of any other type there is no modifier. -/
theorem refuses_repeated_typeName {s : String} (hs : IsTypeName s) (hne : s ≠ "repeated")
    (hrest : Ends isNamePart rest) :
    Refuses rules.find lines (.ref "Repeated") (s.toList ++ rest) := by
  by_cases hp : "repeated".toList <+: s.toList ++ rest
  · have hpart := isNamePart_of_mem repeated_isIdentifier
    obtain ⟨u, hu⟩ := prefix_of_prefix_append hpart hrest hp
    rw [← hu, List.append_assoc]
    cases u with
    | nil =>
      rw [List.append_nil] at hu
      exact absurd (String.toList_injective hu).symm hne
    | cons c u =>
      have hc := isNamePart_of_mem hs.isIdentifier c (by rw [← hu]; simp)
      exact refuses_repeated_append (solid_cons (solid_of_isNamePart hc))
  · exact refuses_repeated hp

/-! ### Numbers and what follows them -/

theorem number_ne_nil {c stop : Cursor} (h : Reads digitsText c.rest stop.rest) : c.rest ≠ [] := by
  have hlt := h.length_lt fun h0 => (mem_digitsText.mp h0).1 rfl
  exact List.ne_nil_of_length_pos (by omega)

theorem numbered_ensures :
    EnsuresRow rules.find lines [number, gap, terminal .semicolon, gap]
      (fun c stop _ => c.rest ≠ [] ∧ Reads numberedText c.rest stop.rest) := by
  refine Ensures.imp (number_ensures.row_cons (gap_ensures.row_cons ((Ensures.literal _).row_cons
    (gap_ensures.row_cons .nil)))) fun c stop v _ h => ?_
  obtain ⟨xs, rfl, c₁, _, _, h₁, ⟨c₂, _, _, h₂, ⟨c₃, _, _, ⟨h₃, -⟩, ⟨c₄, _, _, h₄, ⟨rfl, -⟩, -⟩, -⟩,
    -⟩, -⟩ := h
  exact ⟨xs, rfl, number_ne_nil h₁, ((h₁.mul h₂).mul (Reads.of_word h₃)).mul h₄⟩

theorem takes_numbered (h : Reads numberedText text rest) (hrest : Solid rest) :
    TakesRow rules.find lines [number, gap, terminal .semicolon, gap] text rest
      (fun _ => True) := by
  rw [numberedText, mul_assoc, mul_assoc] at h
  obtain ⟨d, hd, t₁, rfl, h₁⟩ := h.uncons
  obtain ⟨g, hg, t₂, rfl, h₂⟩ := h₁.uncons
  obtain ⟨_, rfl, t, rfl, h₃⟩ := h₂.uncons
  have hnumber : Takes rules.find lines number (d ++ (g ++ ';' :: t)) _ _ :=
    takes_number hd (ends_gap hg (ends_cons rfl))
  have hgap : Takes rules.find lines gap (g ++ ';' :: t) _ _ :=
    takes_gap (Reads.of_mem hg _) (solid_cons (by decide))
  have hend : Takes rules.find lines (terminal .semicolon) (';' :: t) t _ := Takes.literal _ _
  have hrow := hnumber.row_cons (hgap.row_cons (hend.row_cons ((takes_gap h₃ hrest).row_cons .nil)))
  exact Takes.imp hrow fun v hv => hv.imp fun xs hxs => ⟨hxs.1, trivial⟩

theorem solid_numbered (h : Reads numberedText text rest) : Solid text := by
  rw [numberedText, mul_assoc, mul_assoc] at h
  obtain ⟨d, hd, t, rfl, -⟩ := h.uncons
  exact solid_digits hd t

/-! ### Fields -/

theorem find_fieldRule : rules.find "FieldDefinition" = some fieldRule.body := rfl

theorem ne_nil_of_name {s : String} (hs : isIdentifier s = true) {t r : List Char}
    (h : t = s.toList ++ r) : t ≠ [] := by
  rw [h]
  exact List.append_ne_nil_of_left_ne_nil (isIdentifier_ne_nil hs) r

/-- What the rule of fields makes of the values in its row. -/
theorem buildField_eq (b : Bool) (type s : String) (x₂ : Value Node) (xs : List (Value Node))
    (span : Span) :
    buildField.build ((if b then .flag else .absent) :: .text type :: x₂ :: .text s :: xs) span
      = .ok (.node (.field { name := s, type, repeated := b, span })) := by
  cases b <;> rfl

theorem field_ensures : Ensures rules.find lines (.ref "FieldDefinition")
    (fun c stop v => ∃ f, v = .node (.field f) ∧ Reads (fieldText f) c.rest stop.rest) := by
  refine .ref find_fieldRule ((repeated_ensures.optional.row_cons (fieldType_ensures.row_cons
    (gap1_ensures.row_cons (name_ensures.row_cons (gap_ensures.row_cons
    ((Ensures.literal _).row_cons (gap_ensures.row_cons numbered_ensures)))))))
    |>.action fun c stop xs h => ?_)
  obtain ⟨c₁, x₁, _, hmod, ⟨c₂, _, _, ⟨type, rfl, htype, h₂⟩, ⟨c₃, _, _, hgap1,
    ⟨c₄, _, _, ⟨s, rfl, hs, h₄⟩, ⟨c₅, _, _, h₅, ⟨c₆, _, _, ⟨h₆, -⟩, ⟨c₇, _, _, h₇,
    ⟨-, h₈⟩, rfl⟩, rfl⟩, rfl⟩, rfl⟩, rfl⟩, rfl⟩, rfl⟩ := h
  have hgap1 := hgap1 (ne_nil_of_name hs h₄)
  have hname : Reads (nameText s) c₃.rest c₄.rest := by
    rw [h₄]
    exact Reads.of_mem (mem_nameText.mpr ⟨hs, rfl⟩) _
  -- without the modifier the type is not its word, which would have been taken as the modifier
  have htype : ∃ b, x₁ = (if b then .flag else .absent) ∧
      Reads (modifierText b * typeText b type) c.rest c₂.rest := by
    have hreads {b : Bool} (hb : b = false → type ≠ "repeated") :
        Reads (typeText b type) c₁.rest c₂.rest := by
      rw [h₂]
      exact Reads.of_mem (mem_typeText.mpr ⟨htype, hb, rfl⟩) _
    rcases hmod with ⟨rfl, hmod⟩ | ⟨hfail, rfl, rfl⟩
    · have hmod := hmod (ne_nil_of_name htype.isIdentifier h₂)
      exact ⟨true, rfl, hmod.mul (hreads (by simp))⟩
    · have hne : type ≠ "repeated" := by
        rintro rfl
        have hsolid : Solid c₃.rest := h₄ ▸ solid_name hs c₄.rest
        exact (takes_repeated hgap1 hsolid).not_failed h₂ hfail
      exact ⟨false, rfl, (Reads.one _).mul (hreads fun _ => hne)⟩
  obtain ⟨b, rfl, htype⟩ := htype
  refine ⟨_, buildField_eq b type s _ _ _, _, rfl, ?_⟩
  exact (((((htype.mul hgap1).mul hname).mul h₅).mul (Reads.of_word h₆)).mul h₇).mul h₈

/-- The modifier in front of a type is taken if it is written, and nothing is taken if not. -/
theorem takes_modifier {b : Bool} {m : List Char} (hm : m ∈ modifierText b) {s : String}
    (hs : IsTypeName s) (hne : b = false → s ≠ "repeated") (hrest : Ends isNamePart rest) :
    Takes rules.find lines (.optional (.ref "Repeated")) (m ++ (s.toList ++ rest))
      (s.toList ++ rest) (· = if b then .flag else .absent) := by
  cases b with
  | true =>
    obtain ⟨w, hw, g, hg, rfl⟩ := Language.mem_mul.mp hm
    cases mem_word.mp hw
    rw [List.append_assoc]
    exact (takes_repeated (Reads.of_mem hg _) (solid_name hs.isIdentifier rest)).optional_present
  | false =>
    cases (show m = [] from hm)
    exact Takes.optional_absent (refuses_repeated_typeName hs (hne rfl) hrest)

theorem takes_equals (rest : List Char) : Takes rules.find lines (terminal .equals) ('=' :: rest) rest
    (fun _ => True) := (Takes.literal "=" rest).imp fun _ _ => trivial

/-- **A text of a field is taken** up to where the gap behind it ends. -/
theorem takes_field {f : Field} (h : Reads (fieldText f) text rest) (hrest : Solid rest) :
    Takes rules.find lines (.ref "FieldDefinition") text rest
      (fun v => ∃ f', v = .node (.field f') ∧ f'.bare = f.bare) := by
  simp only [fieldText, mul_assoc] at h
  obtain ⟨m, hm, t₁, rfl, h₁⟩ := h.uncons
  obtain ⟨_, ⟨htype, hne, rfl⟩, t₂, rfl, h₂⟩ := h₁.uncons
  obtain ⟨g₁, hg₁, t₃, rfl, h₃⟩ := h₂.uncons
  obtain ⟨_, ⟨hname, rfl⟩, t₄, rfl, h₄⟩ := h₃.uncons
  obtain ⟨g₂, hg₂, t₅, rfl, h₅⟩ := h₄.uncons
  obtain ⟨_, rfl, t₆, rfl, h₆⟩ := h₅.uncons
  obtain ⟨g₃, hg₃, t, rfl, hnum⟩ := h₆.uncons
  have hmod (t : List Char) : Takes rules.find lines (.optional (.ref "Repeated"))
      (m ++ (f.type.toList ++ (g₁ ++ t))) (f.type.toList ++ (g₁ ++ t)) _ :=
    takes_modifier hm htype hne (ends_gap1 hg₁ t)
  have hrow := (hmod _).row_cons <|
    (takes_fieldType htype (ends_gap1 hg₁ _)).row_cons <|
    (takes_gap1 (Reads.of_mem hg₁ _) (solid_name hname _)).row_cons <|
    (takes_name hname (ends_gap hg₂ (ends_cons rfl))).row_cons <|
    (takes_gap (Reads.of_mem hg₂ _) (solid_cons (by decide))).row_cons <|
    (takes_equals _).row_cons <|
    (takes_gap (Reads.of_mem hg₃ _) (solid_numbered hnum)).row_cons (takes_numbered hnum hrest)
  refine .ref find_fieldRule (hrow.action fun xs span hxs => ?_)
  obtain ⟨_, _, rfl, ⟨_, _, rfl, ⟨_, _, -, ⟨_, _, rfl, -, rfl⟩, rfl⟩, rfl⟩, rfl⟩ := hxs
  exact ⟨_, buildField_eq f.repeated f.type f.name _ _ span, _, rfl, rfl⟩

/-- Where no name begins, no field begins. -/
theorem refuses_field (h : Ends isNameStart text) :
    Refuses rules.find lines (.ref "FieldDefinition") text := by
  have hmod : Takes rules.find lines (.optional (.ref "Repeated")) text text _ :=
    .optional_absent (refuses_repeated (not_prefix_of_ends repeated_isIdentifier h))
  exact .ref find_fieldRule (Refuses.row_tail hmod (refuses_fieldType h).row_head).action

theorem enum_isTypeName : IsTypeName "enum" := .inr (by decide)

/-- The head of an enumeration begins like a field, but no field has a brace behind its name. -/
theorem refuses_field_enum {g₁ g₂ : List Char} {s : String} (hg₁ : g₁ ∈ gap1Text)
    (hs : isIdentifier s = true) (hg₂ : g₂ ∈ gapText) (t : List Char) :
    Refuses rules.find lines (.ref "FieldDefinition")
      ("enum".toList ++ (g₁ ++ (s.toList ++ (g₂ ++ '\x7b' :: t)))) := by
  have hmod (t : List Char) : Takes rules.find lines (.optional (.ref "Repeated"))
      ("enum".toList ++ (g₁ ++ t)) ("enum".toList ++ (g₁ ++ t)) _ :=
    .optional_absent (refuses_repeated_typeName enum_isTypeName (by decide) (ends_gap1 hg₁ t))
  have hequals : Refuses rules.find lines (terminal .equals) ('\x7b' :: t) :=
    .literal fun hp => nomatch hp
  refine .ref find_fieldRule (Refuses.action ?_)
  exact Refuses.row_tail (hmod _) <|
    Refuses.row_tail (takes_fieldType enum_isTypeName (ends_gap1 hg₁ _)) <|
    Refuses.row_tail (takes_gap1 (Reads.of_mem hg₁ _) (solid_name hs _)) <|
    Refuses.row_tail (takes_name hs (ends_gap hg₂ (ends_cons rfl))) <|
    Refuses.row_tail (takes_gap (Reads.of_mem hg₂ _) (solid_cons (by decide))) hequals.row_head

/-! ### Values -/

theorem find_enumValueRule : rules.find "EnumValue" = some enumValueRule.body := rfl

theorem value_ensures : Ensures rules.find lines (.ref "EnumValue")
    (fun c stop v => ∃ a, v = .node (.enumValue a) ∧ Reads (valueText a) c.rest stop.rest) := by
  refine .ref find_enumValueRule ((name_ensures.row_cons (gap1_ensures.row_cons
    ((Ensures.literal _).row_cons (gap1_ensures.row_cons numbered_ensures))))
    |>.action fun c stop xs h => ?_)
  obtain ⟨c₁, _, _, ⟨s, rfl, hs, h₁⟩, ⟨c₂, _, _, hgap1, ⟨c₃, _, _, ⟨h₃, -⟩, ⟨c₄, _, _, hgap1',
    ⟨hne, h₅⟩, rfl⟩, rfl⟩, rfl⟩, rfl⟩ := h
  have hname : Reads (nameText s) c.rest c₁.rest := by
    rw [h₁]
    exact Reads.of_mem (mem_nameText.mpr ⟨hs, rfl⟩) _
  have hgap1 := hgap1 (h₃ ▸ List.cons_ne_nil '=' c₃.rest)
  refine ⟨_, rfl, { name := s, span := _ }, rfl, ?_⟩
  exact (((hname.mul hgap1).mul (Reads.of_word h₃)).mul (hgap1' hne)).mul h₅

/-- **A text of a value is taken** up to where the gap behind it ends. -/
theorem takes_value {a : EnumValue} (h : Reads (valueText a) text rest) (hrest : Solid rest) :
    Takes rules.find lines (.ref "EnumValue") text rest
      (fun v => ∃ a', v = .node (.enumValue a') ∧ a'.bare = a.bare) := by
  simp only [valueText, mul_assoc] at h
  obtain ⟨_, ⟨hname, rfl⟩, t₁, rfl, h₁⟩ := h.uncons
  obtain ⟨g₁, hg₁, t₂, rfl, h₂⟩ := h₁.uncons
  obtain ⟨_, rfl, t₃, rfl, h₃⟩ := h₂.uncons
  obtain ⟨g₂, hg₂, t, rfl, hnum⟩ := h₃.uncons
  have hhead (t : List Char) : Takes rules.find lines name (a.name.toList ++ (g₁ ++ t)) (g₁ ++ t) _ :=
    takes_name hname (ends_gap1 hg₁ t)
  have hrow := (hhead _).row_cons <|
    (takes_gap1 (Reads.of_mem hg₁ _) (solid_cons (by decide))).row_cons <|
    (takes_equals _).row_cons <|
    (takes_gap1 (Reads.of_mem hg₂ _) (solid_numbered hnum)).row_cons (takes_numbered hnum hrest)
  refine .ref find_enumValueRule (hrow.action fun xs span hxs => ?_)
  obtain ⟨_, _, rfl, -, rfl⟩ := hxs
  exact ⟨_, rfl, { name := a.name, span }, rfl, rfl⟩

theorem refuses_value (h : Ends isNameStart text) :
    Refuses rules.find lines (.ref "EnumValue") text :=
  .ref find_enumValueRule (refuses_name h).row_head.action

/-! ### How the texts begin -/

theorem BeginsSolid.mul {L : Language Char} (h : BeginsSolid L) (M : Language Char) :
    BeginsSolid (L * M) := by
  intro z hz
  obtain ⟨x, hx, y, -, rfl⟩ := Language.mem_mul.mp hz
  refine ⟨List.append_ne_nil_of_left_ne_nil (h x hx).1 y, fun t => ?_⟩
  rw [List.append_assoc]
  exact (h x hx).2 (y ++ t)

theorem beginsSolid_word {w : String} (hw : isIdentifier w = true) : BeginsSolid (word w) := by
  intro x hx
  cases mem_word.mp hx
  exact ⟨isIdentifier_ne_nil hw, solid_name hw⟩

theorem beginsSolid_nameText (s : String) : BeginsSolid (nameText s) := by
  rintro x ⟨hs, rfl⟩
  exact ⟨isIdentifier_ne_nil hs, solid_name hs⟩

theorem beginsSolid_typeText (b : Bool) (s : String) : BeginsSolid (typeText b s) := by
  rintro x ⟨hs, -, rfl⟩
  exact ⟨isIdentifier_ne_nil hs.isIdentifier, solid_name hs.isIdentifier⟩

theorem beginsSolid_fieldText (f : Field) : BeginsSolid (fieldText f) := by
  have htype : BeginsSolid (modifierText f.repeated * typeText f.repeated f.type) := by
    cases f.repeated with
    | true => exact ((beginsSolid_word repeated_isIdentifier).mul _).mul _
    | false =>
      rw [show modifierText false = 1 from rfl, one_mul]
      exact beginsSolid_typeText false f.type
  exact (((((htype.mul _).mul _).mul _).mul _).mul _).mul _

theorem beginsSolid_valueText (a : EnumValue) : BeginsSolid (valueText a) :=
  ((((beginsSolid_nameText a.name).mul _).mul _).mul _).mul _

end MessageIdl.Schema
