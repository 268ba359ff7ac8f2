import MessageIdl.Proofs.Schema.Declarations

/-!
# Where the nodes of a tree stand

The offsets of spans in a text.  Parts that follow each other tile what stands between the braces of
their parent, or behind the first gap of a file.

* `Stands`: the offsets of a span.
* `Slice`: a text of a language between two offsets.
* `Tiles`, `MixedTiles`: parts one behind the other; `Tiles.pairwise`, `Tiles.exists_place`.
* `FieldAt`, `ValueAt`, `EnumAt`, `MessageAt`, `FileAt`: the places of all nodes of a tree.
* `Ascending`, `Nested`: what follows for the spans of nodes of one kind.
-/

namespace MessageIdl.Schema

open MessageIdl.Peg MessageIdl.Source

/-! ### Places -/

/-- What has this span begins at the offset `i` and ends before the offset `j`. -/
def Stands (span : Option Span) (i j : Nat) : Prop :=
  ∃ s, span = some s ∧ s.start.offset = i ∧ s.stop.offset = j

/-- A text of `L` stands from `i` to `j`; up to the end of the input a comment without its line feed may
stand behind it. -/
structure Slice (L : Language Char) (text : List Char) (i j : Nat) : Prop where
  le : i ≤ j
  le_length : j ≤ text.length
  reads : Reads L (text.drop i) (text.drop j)

/-- A gap stands from `i` to `j`, and what stands behind it begins like no gap. -/
def GapEnds (text : List Char) (i j : Nat) : Prop := Slice gapText text i j ∧ Solid (text.drop j)

/-- Parts one behind the other from `i` to `k`, none of them empty; `P a i j` says that the part `a`
stands from `i` to `j`. -/
inductive Tiles {A : Type} (P : A → Nat → Nat → Prop) : List A → Nat → Nat → Prop where
  | nil {i} : Tiles P [] i i
  | cons {a as i j k} : P a i j → i < j → Tiles P as j k → Tiles P (a :: as) i k

/-- The parts `as` and `bs` together, each kind in its own order, one behind the other. -/
def MixedTiles {A B : Type} (P : A → Nat → Nat → Prop) (Q : B → Nat → Nat → Prop) (as : List A)
    (bs : List B) (i j : Nat) : Prop :=
  ∃ parts : List (A ⊕ B), parts.filterMap Sum.getLeft? = as ∧ parts.filterMap Sum.getRight? = bs ∧
    Tiles (Sum.elim P Q) parts i j

/-- What stands between the braces of a node from `i` to `j`: it begins where the gap behind the one
brace ends, and ends at the other brace. -/
def Body (text : List Char) (T : Nat → Nat → Prop) (i j : Nat) : Prop :=
  ∃ brace a b, i < brace ∧ text[brace]? = some '\x7b' ∧ GapEnds text (brace + 1) a ∧ T a b ∧
    text[b]? = some '\x7d' ∧ b < j

/-! ### The nodes of a tree -/

section Nodes

variable (text : List Char)

/-- The field stands from `i` to `j`. -/
def FieldAt (f : Field) (i j : Nat) : Prop := Stands f.span i j ∧ Slice (fieldText f) text i j

/-- The value of an enumeration stands from `i` to `j`. -/
def ValueAt (v : EnumValue) (i j : Nat) : Prop := Stands v.span i j ∧ Slice (valueText v) text i j

/-- The enumeration stands from `i` to `j`, and its values tile its body. -/
def EnumAt (e : Enumeration) (i j : Nat) : Prop :=
  Stands e.span i j ∧ Slice (enumText e) text i j ∧ Body text (Tiles (ValueAt text) e.values) i j

/-- The message stands from `i` to `j`; its fields and its enumerations together tile its body. -/
def MessageAt (m : Message) (i j : Nat) : Prop :=
  Stands m.span i j ∧ Slice (messageText m) text i j ∧
    Body text (MixedTiles (FieldAt text) (EnumAt text) m.fields m.enums) i j

/-- The file is the whole text; its messages and its enumerations together tile what stands behind the
first gap. -/
def FileAt (f : SchemaFile) : Prop :=
  Stands f.span 0 text.length ∧ ∃ i, GapEnds text 0 i ∧
    MixedTiles (MessageAt text) (EnumAt text) f.messages f.enums i text.length

end Nodes

/-! ### Parts one behind the other -/

namespace Tiles

variable {A : Type} {P : A → Nat → Nat → Prop} {as : List A} {i k : Nat}

theorem le (h : Tiles P as i k) : i ≤ k := by
  induction h with
  | nil => exact Nat.le_refl _
  | cons _ hlt _ ih => omega

/-- Each part has its place. -/
theorem exists_place (h : Tiles P as i k) {a : A} (ha : a ∈ as) :
    ∃ i' j', P a i' j' ∧ i ≤ i' ∧ i' < j' ∧ j' ≤ k := by
  induction h with
  | nil => exact absurd ha List.not_mem_nil
  | @cons b bs i j k hb hlt hbs ih =>
    rcases List.mem_cons.mp ha with rfl | ha
    · exact ⟨i, j, hb, Nat.le_refl i, hlt, hbs.le⟩
    · obtain ⟨i', j', hp, hi, hlt', hk⟩ := ih ha
      exact ⟨i', j', hp, by omega, hlt', hk⟩

/-- Each part ends before all later ones begin. -/
theorem pairwise (h : Tiles P as i k) :
    as.Pairwise fun a b => ∃ i j i' j', P a i j ∧ P b i' j' ∧ i < j ∧ j ≤ i' := by
  induction h with
  | nil => exact .nil
  | @cons a as i j k ha hlt has ih =>
    refine .cons (fun b hb => ?_) ih
    obtain ⟨i', j', hp, hi, -, -⟩ := has.exists_place hb
    exact ⟨i, j, i', j', ha, hp, hlt, hi⟩

/-- What all parts and the end begin like, the front begins like. -/
theorem solid {text : List Char} (h : Tiles P as i k)
    (hpart : ∀ a i j, P a i j → Solid (text.drop i)) (hend : Solid (text.drop k)) :
    Solid (text.drop i) := by
  cases h with
  | nil => exact hend
  | cons ha _ _ => exact hpart _ _ _ ha

end Tiles

namespace MixedTiles

variable {A B : Type} {P : A → Nat → Nat → Prop} {Q : B → Nat → Nat → Prop} {as : List A}
  {bs : List B} {i k : Nat}

theorem exists_left (h : MixedTiles P Q as bs i k) {a : A} (ha : a ∈ as) :
    ∃ i' j', P a i' j' ∧ i ≤ i' ∧ i' < j' ∧ j' ≤ k := by
  obtain ⟨parts, rfl, -, htiles⟩ := h
  obtain ⟨p, hp, hleft⟩ := List.mem_filterMap.mp ha
  cases Sum.getLeft?_eq_some_iff.mp hleft
  exact htiles.exists_place hp

theorem exists_right (h : MixedTiles P Q as bs i k) {b : B} (hb : b ∈ bs) :
    ∃ i' j', Q b i' j' ∧ i ≤ i' ∧ i' < j' ∧ j' ≤ k := by
  obtain ⟨parts, -, rfl, htiles⟩ := h
  obtain ⟨p, hp, hright⟩ := List.mem_filterMap.mp hb
  cases Sum.getRight?_eq_some_iff.mp hright
  exact htiles.exists_place hp

theorem pairwise_left (h : MixedTiles P Q as bs i k) :
    as.Pairwise fun a b => ∃ i j i' j', P a i j ∧ P b i' j' ∧ i < j ∧ j ≤ i' := by
  obtain ⟨parts, rfl, -, htiles⟩ := h
  refine htiles.pairwise.filterMap _ fun p q hpq a ha b hb => ?_
  cases Sum.getLeft?_eq_some_iff.mp ha
  cases Sum.getLeft?_eq_some_iff.mp hb
  exact hpq

theorem pairwise_right (h : MixedTiles P Q as bs i k) :
    bs.Pairwise fun a b => ∃ i j i' j', Q a i j ∧ Q b i' j' ∧ i < j ∧ j ≤ i' := by
  obtain ⟨parts, -, rfl, htiles⟩ := h
  refine htiles.pairwise.filterMap _ fun p q hpq a ha b hb => ?_
  cases Sum.getRight?_eq_some_iff.mp ha
  cases Sum.getRight?_eq_some_iff.mp hb
  exact hpq

theorem solid {text : List Char} (h : MixedTiles P Q as bs i k)
    (hleft : ∀ a i j, P a i j → Solid (text.drop i))
    (hright : ∀ b i j, Q b i j → Solid (text.drop i)) (hend : Solid (text.drop k)) :
    Solid (text.drop i) := by
  obtain ⟨parts, -, -, htiles⟩ := h
  refine htiles.solid (fun p i j hp => ?_) hend
  cases p with
  | inl a => exact hleft a i j hp
  | inr b => exact hright b i j hp

end MixedTiles

/-! ### Order and nesting -/

/-- Each span begins after those before it. -/
def Ascending (spans : List (Option Span)) : Prop :=
  spans.Pairwise fun s t => ∃ i j i' j', Stands s i j ∧ Stands t i' j' ∧ i < i'

/-- The spans are in order and lie strictly inside that of the parent. -/
def Nested (parent : Option Span) (spans : List (Option Span)) : Prop :=
  Ascending spans ∧
    ∀ s ∈ spans, ∃ i j i' j', Stands parent i j ∧ Stands s i' j' ∧ i < i' ∧ j' < j

/-- All enumerations of a file, those at the top level and those in messages. -/
def SchemaFile.allEnums (f : SchemaFile) : List Enumeration :=
  f.enums ++ f.messages.flatMap (·.enums)

/-- All nodes of one kind are in the order of their spans, and lie inside their parent. -/
structure SchemaFile.Ordered (f : SchemaFile) : Prop where
  messages : Ascending (f.messages.map (·.span))
  enums : Ascending (f.enums.map (·.span))
  fields : ∀ m ∈ f.messages, Nested m.span (m.fields.map (·.span))
  nestedEnums : ∀ m ∈ f.messages, Nested m.span (m.enums.map (·.span))
  values : ∀ e ∈ f.allEnums, Nested e.span (e.values.map (·.span))

section Order

variable {text : List Char} {A : Type} {P : A → Nat → Nat → Prop} {spanOf : A → Option Span}
  {as : List A} {T : Nat → Nat → Prop} {parent : Option Span} {i j : Nat}

theorem ascending_of_pairwise (hspan : ∀ a i j, P a i j → Stands (spanOf a) i j)
    (h : as.Pairwise fun a b => ∃ i j i' j', P a i j ∧ P b i' j' ∧ i < j ∧ j ≤ i') :
    Ascending (as.map spanOf) := by
  refine List.pairwise_map.mpr (h.imp fun {a b} hab => ?_)
  obtain ⟨i, j, i', j', ha, hb, hlt, hle⟩ := hab
  exact ⟨i, j, i', j', hspan a i j ha, hspan b i' j' hb, by omega⟩

/-- Parts of a body are nested in the node that the body belongs to. -/
theorem Body.nested (h : Body text T i j) (hparent : Stands parent i j)
    (hspan : ∀ a i j, P a i j → Stands (spanOf a) i j)
    (hpairwise : ∀ a b, T a b →
      as.Pairwise fun a b => ∃ i j i' j', P a i j ∧ P b i' j' ∧ i < j ∧ j ≤ i')
    (hplace : ∀ a b, T a b → ∀ x ∈ as, ∃ i' j', P x i' j' ∧ a ≤ i' ∧ i' < j' ∧ j' ≤ b) :
    Nested parent (as.map spanOf) := by
  obtain ⟨brace, a, b, hbrace, -, ⟨hgap, -⟩, hparts, -, hclose⟩ := h
  refine ⟨ascending_of_pairwise hspan (hpairwise a b hparts), fun s hs => ?_⟩
  obtain ⟨x, hx, rfl⟩ := List.mem_map.mp hs
  obtain ⟨i', j', hp, hi, hlt, hj⟩ := hplace a b hparts x hx
  have hle := hgap.le
  exact ⟨i, j, i', j', hparent, hspan x i' j' hp, by omega, by omega⟩

theorem EnumAt.nested {e : Enumeration} (h : EnumAt text e i j) :
    Nested e.span (e.values.map (·.span)) :=
  h.2.2.nested h.1 (fun _ _ _ hv => hv.1) (fun _ _ => Tiles.pairwise)
    fun _ _ ht _ => ht.exists_place

theorem MessageAt.nested_fields {m : Message} (h : MessageAt text m i j) :
    Nested m.span (m.fields.map (·.span)) :=
  h.2.2.nested h.1 (fun _ _ _ hf => hf.1) (fun _ _ => MixedTiles.pairwise_left)
    fun _ _ ht _ => ht.exists_left

theorem MessageAt.nested_enums {m : Message} (h : MessageAt text m i j) :
    Nested m.span (m.enums.map (·.span)) :=
  h.2.2.nested h.1 (fun _ _ _ he => he.1) (fun _ _ => MixedTiles.pairwise_right)
    fun _ _ ht _ => ht.exists_right

theorem FileAt.exists_message {f : SchemaFile} (h : FileAt text f) {m : Message}
    (hm : m ∈ f.messages) : ∃ i j, MessageAt text m i j := by
  obtain ⟨-, i, -, htiles⟩ := h
  obtain ⟨i', j', hp, -⟩ := htiles.exists_left hm
  exact ⟨i', j', hp⟩

theorem FileAt.exists_enum {f : SchemaFile} (h : FileAt text f) {e : Enumeration}
    (he : e ∈ f.allEnums) : ∃ i j, EnumAt text e i j := by
  rcases List.mem_append.mp he with he | he
  · obtain ⟨-, i, -, htiles⟩ := h
    obtain ⟨i', j', hp, -⟩ := htiles.exists_right he
    exact ⟨i', j', hp⟩
  · obtain ⟨m, hm, he⟩ := List.mem_flatMap.mp he
    obtain ⟨i, j, -, -, brace, a, b, -, -, -, htiles, -⟩ := h.exists_message hm
    obtain ⟨i', j', hp, -⟩ := htiles.exists_right he
    exact ⟨i', j', hp⟩

/-- Nodes that tile their parents are in order and lie inside them. -/
theorem FileAt.ordered {f : SchemaFile} (h : FileAt text f) : f.Ordered where
  messages := by
    obtain ⟨-, i, -, htiles⟩ := h
    exact ascending_of_pairwise (fun _ _ _ hm => hm.1) htiles.pairwise_left
  enums := by
    obtain ⟨-, i, -, htiles⟩ := h
    exact ascending_of_pairwise (fun _ _ _ he => he.1) htiles.pairwise_right
  fields m hm := by
    obtain ⟨i, j, hat⟩ := h.exists_message hm
    exact hat.nested_fields
  nestedEnums m hm := by
    obtain ⟨i, j, hat⟩ := h.exists_message hm
    exact hat.nested_enums
  values e he := by
    obtain ⟨i, j, hat⟩ := h.exists_enum he
    exact hat.nested

end Order

end MessageIdl.Schema
