import Mathlib.Computability.Language
import Mathlib.Order.CompletePartialOrder
import MessageIdl.Schema.Lexical

/-!
# The language of schemas

A free grammar for schema files: which texts stand for which tree.  Nothing in it depends on the order
in which a reader tries things, and a gap may be divided between its neighbours in any way.

* `gapText`, `gap1Text`: the gaps between terminals, made of blanks and comments.
* `numberedText`, `bodyText`: the forms that several parts of a tree share.
* `fieldText`, `valueText`, `enumText`, `messageText`: the texts of the parts of a tree.
* `mixedText`: texts in which parts of two kinds are mixed, each kind in its own order.
* `fileText`: the texts of a file; by `SchemaFile.Same.fileText_eq` they do not depend on spans.
-/

namespace MessageIdl.Schema

open scoped Computability

/-- The text `w` and no other. -/
def word (w : String) : Language Char := {w.toList}

/-! ### Gaps -/

/-- One blank. -/
def blankText : Language Char := {t | ∃ c ∈ blanks, t = [c]}

/-- Two slashes and no line feed behind them. -/
def openCommentText : Language Char := {t | ∃ s, '\n' ∉ s ∧ t = '/' :: '/' :: s}

/-- A comment up to the end of its line. -/
def lineCommentText : Language Char := openCommentText * word "\n"

/-- A comment between marks; it ends at the first closing mark. -/
def blockCommentText : Language Char :=
  {t | ∃ s, ¬ ['*', '/'] <:+: s ∧ t = '/' :: '*' :: (s ++ ['*', '/'])}

/-- One blank or one comment. -/
def unitText : Language Char := blankText + lineCommentText + blockCommentText

/-- Any number of blanks and comments. -/
def gapText : Language Char := unitText∗

/-- At least one blank or comment. -/
def gap1Text : Language Char := unitText * gapText

/-! ### Words -/

/-- The name `s`, if it is one. -/
def nameText (s : String) : Language Char := {t | isIdentifier s = true ∧ t = s.toList}

/-- Any number in decimal digits. -/
def digitsText : Language Char := {t | t ≠ [] ∧ ∀ c ∈ t, c.isDigit = true}

/-- What may be written as a type: a keyword, or a name in front of which no keyword stands. -/
def IsTypeName (s : String) : Prop :=
  (∃ k ∈ Scalar.all, s = k.keyword) ∨
    isIdentifier s = true ∧ ∀ k ∈ Scalar.all, ¬ k.keyword.toList <+: s.toList

/-- The type `s`.  Without the modifier in front of it, it is not the word of the modifier. -/
def typeText (repeated : Bool) (s : String) : Language Char :=
  {t | IsTypeName s ∧ (repeated = false → s ≠ "repeated") ∧ t = s.toList}

/-- The modifier of a repeated field, or nothing. -/
def modifierText (repeated : Bool) : Language Char :=
  if repeated then word "repeated" * gap1Text else 1

/-! ### The parts of a tree -/

/-- A number and the end of the line that it stands in. -/
def numberedText : Language Char := digitsText * gapText * word ";" * gapText

/-- A name and a body with texts of `L` between braces. -/
def bodyText (s : String) (L : Language Char) : Language Char :=
  nameText s * gapText * word "\x7b" * gapText * L * word "\x7d" * gapText

/-- The texts of a field. -/
def fieldText (f : Field) : Language Char :=
  modifierText f.repeated * typeText f.repeated f.type * gap1Text * nameText f.name * gapText
    * word "=" * gapText * numberedText

/-- The texts of a value of an enumeration. -/
def valueText (v : EnumValue) : Language Char :=
  nameText v.name * gap1Text * word "=" * gap1Text * numberedText

/-- The texts of the values of an enumeration, of which there is at least one. -/
def valuesText (vs : List EnumValue) : Language Char :=
  {t | vs ≠ [] ∧ t ∈ (vs.map valueText).prod}

/-- The texts of an enumeration. -/
def enumText (e : Enumeration) : Language Char :=
  word "enum" * gap1Text * bodyText e.name (valuesText e.values)

/-- Texts in which the parts `as` and `bs` are mixed, each kind in its own order. -/
def mixedText {A B : Type} (textA : A → Language Char) (textB : B → Language Char) (as : List A)
    (bs : List B) : Language Char :=
  {t | ∃ parts : List (A ⊕ B), parts.filterMap Sum.getLeft? = as ∧
    parts.filterMap Sum.getRight? = bs ∧ t ∈ (parts.map (Sum.elim textA textB)).prod}

/-- The texts of a message. -/
def messageText (m : Message) : Language Char :=
  word "message" * gapText * bodyText m.name (mixedText fieldText enumText m.fields m.enums)

/-- The texts of a file.  At its very end a comment may lack its line feed. -/
def fileText (f : SchemaFile) : Language Char :=
  gapText * mixedText messageText enumText f.messages f.enums * (1 + openCommentText)

/-! ### Spans do not matter -/

section Mixed

variable {A B : Type}

theorem map_filterMap_getLeft (f : A → A) (g : B → B) (parts : List (A ⊕ B)) :
    (parts.filterMap Sum.getLeft?).map f = (parts.map (Sum.map f g)).filterMap Sum.getLeft? := by
  rw [List.map_filterMap, List.filterMap_map]
  exact List.filterMap_congr fun p _ => (Sum.getLeft?_map f g p).symm

theorem map_filterMap_getRight (f : A → A) (g : B → B) (parts : List (A ⊕ B)) :
    (parts.filterMap Sum.getRight?).map g = (parts.map (Sum.map f g)).filterMap Sum.getRight? := by
  rw [List.map_filterMap, List.filterMap_map]
  exact List.filterMap_congr fun p _ => (Sum.getRight?_map f g p).symm

/-- Mixed parts that were changed are mixed in the same way as before. -/
theorem exists_parts (f : A → A) (g : B → B) (parts : List (A ⊕ B)) :
    ∀ (as : List A) (bs : List B), parts.filterMap Sum.getLeft? = as.map f →
      parts.filterMap Sum.getRight? = bs.map g → ∃ parts' : List (A ⊕ B),
        parts'.filterMap Sum.getLeft? = as ∧ parts'.filterMap Sum.getRight? = bs ∧
          parts'.map (Sum.map f g) = parts := by
  induction parts with
  | nil =>
    intro as bs has hbs
    refine ⟨[], ?_, ?_, rfl⟩
    · exact (List.map_eq_nil_iff.mp has.symm).symm
    · exact (List.map_eq_nil_iff.mp hbs.symm).symm
  | cons p parts ih =>
    intro as bs has hbs
    cases p with
    | inl a =>
      obtain ⟨a', as', rfl, rfl, has'⟩ := List.map_eq_cons_iff.mp has.symm
      obtain ⟨parts', rfl, rfl, hparts⟩ := ih as' bs has'.symm hbs
      exact ⟨.inl a' :: parts', rfl, rfl, by rw [List.map_cons, hparts]; rfl⟩
    | inr b =>
      obtain ⟨b', bs', rfl, rfl, hbs'⟩ := List.map_eq_cons_iff.mp hbs.symm
      obtain ⟨parts', rfl, rfl, hparts⟩ := ih as bs' has hbs'.symm
      exact ⟨.inr b' :: parts', rfl, rfl, by rw [List.map_cons, hparts]; rfl⟩

/-- Changes that do not change the texts of parts do not change those of mixed parts. -/
theorem mixedText_map {textA : A → Language Char} {textB : B → Language Char} {f : A → A}
    {g : B → B} (hf : ∀ a, textA (f a) = textA a) (hg : ∀ b, textB (g b) = textB b) (as : List A)
    (bs : List B) :
    mixedText textA textB (as.map f) (bs.map g) = mixedText textA textB as bs := by
  have htext : Sum.elim textA textB ∘ Sum.map f g = Sum.elim textA textB := by
    funext p
    cases p with
    | inl a => exact hf a
    | inr b => exact hg b
  ext t
  constructor
  · rintro ⟨parts, has, hbs, ht⟩
    obtain ⟨parts', has', hbs', rfl⟩ := exists_parts f g parts as bs has hbs
    rw [List.map_map, htext] at ht
    exact ⟨parts', has', hbs', ht⟩
  · rintro ⟨parts, rfl, rfl, ht⟩
    refine ⟨parts.map (Sum.map f g), (map_filterMap_getLeft f g parts).symm,
      (map_filterMap_getRight f g parts).symm, ?_⟩
    rw [List.map_map, htext]
    exact ht

end Mixed

theorem enumText_bare (e : Enumeration) : enumText e.bare = enumText e := by
  have hvalues : valuesText e.bare.values = valuesText e.values := by
    ext t
    show (e.values.map EnumValue.bare ≠ [] ∧ t ∈ ((e.values.map EnumValue.bare).map valueText).prod)
      ↔ _
    rw [List.map_map, ne_eq, List.map_eq_nil_iff]
    rfl
  rw [enumText, hvalues]
  rfl

theorem fieldText_bare (f : Field) : fieldText f.bare = fieldText f := rfl

theorem messageText_bare (m : Message) : messageText m.bare = messageText m := by
  show word "message" * gapText * bodyText m.name (mixedText fieldText enumText
    (m.fields.map Field.bare) (m.enums.map Enumeration.bare)) = _
  rw [mixedText_map fieldText_bare enumText_bare]
  rfl

theorem fileText_bare (f : SchemaFile) : fileText f.bare = fileText f := by
  show gapText * mixedText messageText enumText (f.messages.map Message.bare)
    (f.enums.map Enumeration.bare) * (1 + openCommentText) = _
  rw [mixedText_map messageText_bare enumText_bare]
  rfl

/-- Files that say the same have the same texts. -/
theorem SchemaFile.Same.fileText_eq {f g : SchemaFile} (h : f.Same g) : fileText f = fileText g := by
  rw [← fileText_bare f, ← fileText_bare g, h]

end MessageIdl.Schema
