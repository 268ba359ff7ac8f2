import MessageIdl.Proofs.Schema.Language

/-!
# Well-formed trees

A tree may hold any strings as names and types.  The ones that have a text at all are the well-formed
ones.

* `Field.WellFormed`, `Enumeration.WellFormed`, `Message.WellFormed`, `SchemaFile.WellFormed`.
* `wellFormed_of_fileText`: a tree with a text is well formed.
-/

namespace MessageIdl.Schema

open scoped Computability

/-- A field with a name, a type, and a type that is not the word of the modifier if this is missing. -/
structure Field.WellFormed (f : Field) : Prop where
  name : isIdentifier f.name = true
  type : IsTypeName f.type
  modifier : f.repeated = false → f.type ≠ "repeated"

/-- An enumeration with a name and some values, which have names. -/
structure Enumeration.WellFormed (e : Enumeration) : Prop where
  name : isIdentifier e.name = true
  nonempty : e.values ≠ []
  values : ∀ v ∈ e.values, isIdentifier v.name = true

/-- A message with a name and well-formed members. -/
structure Message.WellFormed (m : Message) : Prop where
  name : isIdentifier m.name = true
  fields : ∀ f ∈ m.fields, f.WellFormed
  enums : ∀ e ∈ m.enums, e.WellFormed

/-- A file with well-formed declarations. -/
structure SchemaFile.WellFormed (f : SchemaFile) : Prop where
  messages : ∀ m ∈ f.messages, m.WellFormed
  enums : ∀ e ∈ f.enums, e.WellFormed

/-! ### Parts of texts -/

variable {A B : Type} {t : List Char}

/-- Texts in a row hold a text of each part. -/
theorem exists_of_mem_prod {textOf : A → Language Char} {as : List A} :
    ∀ {t : List Char}, t ∈ (as.map textOf).prod → ∀ a ∈ as, ∃ x, x ∈ textOf a := by
  induction as with
  | nil =>
    intro t _ a ha
    cases ha
  | cons b as ih =>
    intro t ht a ha
    obtain ⟨x, hx, y, hy, -⟩ := Language.mem_mul.mp ht
    rcases List.mem_cons.mp ha with rfl | ha
    · exact ⟨x, hx⟩
    · exact ih hy a ha

/-- Mixed texts hold a text of each part of the first kind. -/
theorem exists_of_mixed_left {textA : A → Language Char} {textB : B → Language Char} {as : List A}
    {bs : List B} (ht : t ∈ mixedText textA textB as bs) : ∀ a ∈ as, ∃ x, x ∈ textA a := by
  obtain ⟨parts, rfl, -, hx⟩ := ht
  intro a ha
  obtain ⟨p, hp, hpa⟩ := List.mem_filterMap.mp ha
  cases Sum.getLeft?_eq_some_iff.mp hpa
  exact exists_of_mem_prod hx _ hp

/-- Mixed texts hold a text of each part of the second kind. -/
theorem exists_of_mixed_right {textA : A → Language Char} {textB : B → Language Char} {as : List A}
    {bs : List B} (ht : t ∈ mixedText textA textB as bs) : ∀ b ∈ bs, ∃ x, x ∈ textB b := by
  obtain ⟨parts, -, rfl, hx⟩ := ht
  intro b hb
  obtain ⟨p, hp, hpb⟩ := List.mem_filterMap.mp hb
  cases Sum.getRight?_eq_some_iff.mp hpb
  exact exists_of_mem_prod hx _ hp

/-- What stands in a body, and its name. -/
theorem of_mem_bodyText {s : String} {L : Language Char} (ht : t ∈ bodyText s L) :
    isIdentifier s = true ∧ ∃ x, x ∈ L := by
  simp only [bodyText, mul_assoc] at ht
  obtain ⟨_, ⟨hs, -⟩, _, h₁, -⟩ := Language.mem_mul.mp ht
  obtain ⟨_, -, _, h₂, -⟩ := Language.mem_mul.mp h₁
  obtain ⟨_, -, _, h₃, -⟩ := Language.mem_mul.mp h₂
  obtain ⟨_, -, _, h₄, -⟩ := Language.mem_mul.mp h₃
  obtain ⟨x, hx, _, -, -⟩ := Language.mem_mul.mp h₄
  exact ⟨hs, x, hx⟩

/-! ### Trees with texts -/

theorem wellFormed_of_fieldText {f : Field} (ht : t ∈ fieldText f) : f.WellFormed := by
  simp only [fieldText, mul_assoc] at ht
  obtain ⟨_, -, _, h₁, -⟩ := Language.mem_mul.mp ht
  obtain ⟨_, ⟨htype, hne, -⟩, _, h₂, -⟩ := Language.mem_mul.mp h₁
  obtain ⟨_, -, _, h₃, -⟩ := Language.mem_mul.mp h₂
  obtain ⟨_, ⟨hname, -⟩, _, -, -⟩ := Language.mem_mul.mp h₃
  exact ⟨hname, htype, hne⟩

theorem name_of_valueText {v : EnumValue} (ht : t ∈ valueText v) : isIdentifier v.name = true := by
  simp only [valueText, mul_assoc] at ht
  obtain ⟨_, ⟨hname, -⟩, _, -, -⟩ := Language.mem_mul.mp ht
  exact hname

theorem wellFormed_of_enumText {e : Enumeration} (ht : t ∈ enumText e) : e.WellFormed := by
  obtain ⟨_, -, _, hbody, -⟩ := Language.mem_mul.mp ht
  obtain ⟨hname, _, hne, hx⟩ := of_mem_bodyText hbody
  refine ⟨hname, hne, fun v hv => ?_⟩
  obtain ⟨_, hy⟩ := exists_of_mem_prod hx v hv
  exact name_of_valueText hy

theorem wellFormed_of_messageText {m : Message} (ht : t ∈ messageText m) : m.WellFormed := by
  obtain ⟨_, -, _, hbody, -⟩ := Language.mem_mul.mp ht
  obtain ⟨hname, _, hx⟩ := of_mem_bodyText hbody
  refine ⟨hname, fun f hf => ?_, fun e he => ?_⟩
  · obtain ⟨_, hy⟩ := exists_of_mixed_left hx f hf
    exact wellFormed_of_fieldText hy
  · obtain ⟨_, hy⟩ := exists_of_mixed_right hx e he
    exact wellFormed_of_enumText hy

/-- **A tree with a text is well formed.** -/
theorem wellFormed_of_fileText {f : SchemaFile} (ht : t ∈ fileText f) : f.WellFormed := by
  obtain ⟨_, hdecls, _, -, -⟩ := Language.mem_mul.mp ht
  obtain ⟨_, -, _, hx, -⟩ := Language.mem_mul.mp hdecls
  refine ⟨fun m hm => ?_, fun e he => ?_⟩
  · obtain ⟨_, hy⟩ := exists_of_mixed_left hx m hm
    exact wellFormed_of_messageText hy
  · obtain ⟨_, hy⟩ := exists_of_mixed_right hx e he
    exact wellFormed_of_enumText hy

end MessageIdl.Schema
