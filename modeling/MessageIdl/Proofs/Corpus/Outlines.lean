import MessageIdl.Proofs.Corpus.Layouts
import MessageIdl.Proofs.Corpus.Scopes

/-!
# Outlines of sample files

An outline tells everything that stands in a file besides blanks and comments, the numbers included.  The
compiler that sample files are made for has rules about names and numbers, which are rules about outlines.

* `FileOutline`: what stands in a file; `FileOutline.tokens`: token by token.
* `IsOutline`: the outline of a text.
* `FileOutline.Lawful`: the rules of scopes and numbers.
* `FileFits.lawful`: the outline of a sketch that fits into its scopes keeps the rules.
* `sources_lawful`: every sample file keeps them.
-/

namespace MessageIdl.Corpus

open MessageIdl.Schema
open scoped Computability

/-! ### What stands in a file -/

/-- An enumeration: each value with its number. -/
structure EnumOutline where
  name : String
  values : List (String × Nat)

/-- A message: fields and enumerations in their order. -/
structure MessageOutline where
  name : String
  members : List (FieldSketch ⊕ EnumOutline)

/-- A file: messages and enumerations in their order. -/
structure FileOutline where
  declarations : List (MessageOutline ⊕ EnumOutline)

/-- The names of the values. -/
def EnumOutline.valueNames (e : EnumOutline) : List String := e.values.map (·.1)

/-- The tokens of an enumeration. -/
def EnumOutline.tokens (e : EnumOutline) : List String :=
  ["enum", e.name, "\x7b"] ++ e.values.flatMap (fun v => [v.1, "=", toString v.2, ";"]) ++ ["\x7d"]

/-- The tokens of a field. -/
def FieldSketch.tokens (f : FieldSketch) : List String :=
  (if f.repeated then ["repeated"] else []) ++ [f.type, f.name, "=", toString f.number, ";"]

namespace MessageOutline

/-- The fields of a message. -/
def fields (m : MessageOutline) : List FieldSketch := m.members.filterMap Sum.getLeft?

/-- The enumerations in a message. -/
def enums (m : MessageOutline) : List EnumOutline := m.members.filterMap Sum.getRight?

/-- The names of the enumerations in a message and of their values. -/
def enumNames (m : MessageOutline) : List String :=
  m.enums.map EnumOutline.name ++ m.enums.flatMap EnumOutline.valueNames

/-- The tokens of a message. -/
def tokens (m : MessageOutline) : List String :=
  ["message", m.name, "\x7b"] ++ m.members.flatMap (Sum.elim FieldSketch.tokens EnumOutline.tokens)
    ++ ["\x7d"]

end MessageOutline

namespace FileOutline

/-- The messages of a file. -/
def messages (o : FileOutline) : List MessageOutline := o.declarations.filterMap Sum.getLeft?

/-- The enumerations at the top of a file. -/
def enums (o : FileOutline) : List EnumOutline := o.declarations.filterMap Sum.getRight?

/-- The names at the top of a file. -/
def topNames (o : FileOutline) : List String :=
  o.declarations.map (Sum.elim MessageOutline.name EnumOutline.name)

/-- The names of all declarations, of all enumerations in messages, and of all values. -/
def sharedNames (o : FileOutline) : List String :=
  o.topNames ++ o.declarations.flatMap (Sum.elim MessageOutline.enumNames EnumOutline.valueNames)

/-- The tokens of a file. -/
def tokens (o : FileOutline) : List String :=
  o.declarations.flatMap (Sum.elim MessageOutline.tokens EnumOutline.tokens)

end FileOutline

/-! ### Trees of outlines -/

/-- The enumeration of an outline. -/
def EnumOutline.tree (e : EnumOutline) : Enumeration :=
  { name := e.name, values := e.valueNames.map fun v => { name := v } }

/-- The message of an outline. -/
def MessageOutline.tree (m : MessageOutline) : Message :=
  { name := m.name, fields := m.fields.map FieldSketch.tree, enums := m.enums.map EnumOutline.tree }

/-- The file of an outline. -/
def FileOutline.tree (o : FileOutline) : SchemaFile :=
  { messages := o.messages.map MessageOutline.tree, enums := o.enums.map EnumOutline.tree }

/-- The texts with the given tokens and nothing between them but blanks and comments. -/
def spelled : List String → Language Char
  | [] => gapText
  | token :: tokens => gapText * word token * spelled tokens

/-- A text has an outline if it consists of its tokens, and is parsed to its tree. -/
structure IsOutline (o : FileOutline) (text : String) : Prop where
  spelled : text.toList ∈ spelled o.tokens
  parsed : ∀ file, ∃ f, parse file text = .ok f ∧ f.Same o.tree

/-! ### Rules -/

/-- The names of values are followed by 0, 1, 2 and so on, and the name is no reserved word. -/
structure EnumOutline.Lawful (e : EnumOutline) : Prop where
  numbers : e.values.map (·.2) = List.range e.values.length
  allowed : e.name ∉ reserved

/-- The rules for a message in a file with the names `top` at its top. -/
structure MessageOutline.Lawful (top : List String) (m : MessageOutline) : Prop where
  allowed : m.name ∉ reserved
  enums : ∀ e ∈ m.enums, e.Lawful
  fields_allowed : ∀ f ∈ m.fields, f.name ∉ reserved
  fields_distinct : (m.fields.map fun f => fold f.name).Nodup
  fields_apart : ∀ f ∈ m.fields, ∀ name ∈ top ++ m.enumNames, fold f.name ≠ fold name
  types : ∀ f ∈ m.fields, (∃ k ∈ Scalar.all, f.type = k.keyword) ∨
    f.type ∈ top ++ m.enums.map EnumOutline.name
  numbers : (0 :: m.fields.map FieldSketch.number).Pairwise (· < ·)

/-- The rules for a file. -/
structure FileOutline.Lawful (o : FileOutline) : Prop where
  distinct : (o.sharedNames.map fold).Nodup
  messages : ∀ m ∈ o.messages, m.Lawful o.topNames
  enums : ∀ e ∈ o.enums, e.Lawful

/-! ### Outlines of sketches -/

/-- The outline of an enumeration. -/
def EnumSketch.outline (e : EnumSketch) : EnumOutline := { name := e.name, values := e.values.zipIdx }

/-- The outline of a member of a message. -/
def MemberSketch.outline : MemberSketch → FieldSketch ⊕ EnumOutline
  | .field f => .inl f
  | .enumeration e => .inr e.outline

/-- The outline of a declaration. -/
def DeclarationSketch.outline : DeclarationSketch → MessageOutline ⊕ EnumOutline
  | .message name members => .inl { name, members := members.map MemberSketch.outline }
  | .enumeration e => .inr e.outline

/-- The outline of a sketch. -/
def outlineOf (sketch : List DeclarationSketch) : FileOutline :=
  { declarations := sketch.map DeclarationSketch.outline }

@[simp] theorem valueNames_outline (e : EnumSketch) : e.outline.valueNames = e.values :=
  List.zipIdx_map_fst 0 e.values

theorem tree_outline (e : EnumSketch) : e.outline.tree = e.tree := by
  rw [EnumOutline.tree, valueNames_outline]
  rfl

/-- The fields and the enumerations of a message, whatever is made of either kind. -/
theorem parts_map {A B : Type} (part : MemberSketch → A ⊕ B) {f : FieldSketch → A} {g : EnumSketch → B}
    (hfield : ∀ x, part (.field x) = .inl (f x)) (henum : ∀ e, part (.enumeration e) = .inr (g e))
    (members : List MemberSketch) :
    (members.map part).filterMap Sum.getLeft? = (fieldsOf members).map f ∧
      (members.map part).filterMap Sum.getRight? = (enumsOf members).map g := by
  rw [List.filterMap_map, List.filterMap_map, fieldsOf, enumsOf, List.map_filterMap, List.map_filterMap]
  constructor
  · refine List.filterMap_congr fun m _ => ?_
    cases m with
    | field x => exact congrArg Sum.getLeft? (hfield x)
    | enumeration e => exact congrArg Sum.getLeft? (henum e)
  · refine List.filterMap_congr fun m _ => ?_
    cases m with
    | field x => exact congrArg Sum.getRight? (hfield x)
    | enumeration e => exact congrArg Sum.getRight? (henum e)

section Members

variable (name : String) (members : List MemberSketch)

theorem fields_outline :
    MessageOutline.fields { name, members := members.map MemberSketch.outline } = fieldsOf members :=
  (parts_map MemberSketch.outline (fun _ => rfl) (fun _ => rfl) members).1.trans (List.map_id _)

theorem enums_outline : MessageOutline.enums { name, members := members.map MemberSketch.outline }
    = (enumsOf members).map EnumSketch.outline :=
  (parts_map MemberSketch.outline (fun _ => rfl) (fun _ => rfl) members).2

theorem enumNames_outline :
    MessageOutline.enumNames { name, members := members.map MemberSketch.outline } = sharedNames members := by
  rw [MessageOutline.enumNames, enums_outline, sharedNames, List.map_map, List.flatMap_map]
  congr 1
  exact List.flatMap_congr fun e _ => valueNames_outline e

end Members

theorem declaration_tree (d : DeclarationSketch) :
    d.tree = Sum.map MessageOutline.tree EnumOutline.tree d.outline := by
  cases d with
  | enumeration e => exact congrArg Sum.inr (tree_outline e).symm
  | message name members =>
    obtain ⟨hfields, henums⟩ := parts_map MemberSketch.tree (fun _ => rfl) (fun _ => rfl) members
    refine congrArg Sum.inl ?_
    rw [hfields, henums, MessageOutline.tree, fields_outline, enums_outline, List.map_map]
    congr 1
    exact List.map_congr_left fun e _ => (tree_outline e).symm

theorem outlineOf_tree (sketch : List DeclarationSketch) : (outlineOf sketch).tree = fileOf sketch := by
  have hdeclarations : sketch.map DeclarationSketch.tree
      = (sketch.map DeclarationSketch.outline).map (Sum.map MessageOutline.tree EnumOutline.tree) := by
    rw [List.map_map]
    exact List.map_congr_left fun d _ => declaration_tree d
  rw [fileOf, hdeclarations, FileOutline.tree, FileOutline.messages, FileOutline.enums,
    List.map_filterMap, List.map_filterMap]
  congr 1
  · rw [List.filterMap_map]
    exact List.filterMap_congr fun p _ => (Sum.getLeft?_map _ _ p).symm
  · rw [List.filterMap_map]
    exact List.filterMap_congr fun p _ => (Sum.getRight?_map _ _ p).symm

/-! ### Tokens of sketches -/

/-- The tokens in a row of pieces. -/
def tokensOf (ps : List Piece) : List String :=
  ps.filterMap fun
    | .token text => some text
    | .gap _ _ => none

theorem tokensOf_append (ps qs : List Piece) : tokensOf (ps ++ qs) = tokensOf ps ++ tokensOf qs :=
  List.filterMap_append

theorem tokensOf_flatten (rows : List (List Piece)) : tokensOf rows.flatten = rows.flatMap tokensOf := by
  rw [tokensOf, List.filterMap_flatten, List.flatMap_def]
  rfl

theorem gap_mul_spelled (tokens : List String) : gapText * spelled tokens = spelled tokens := by
  cases tokens with
  | nil => exact gap_mul_gap
  | cons token tokens => rw [spelled, ← mul_assoc, ← mul_assoc, gap_mul_gap]

/-- Whatever fills its gaps, a row of pieces is a text with its tokens. -/
theorem rowTexts_le_spelled (ps : List Piece) : rowTexts ps ≤ spelled (tokensOf ps) := by
  induction ps with
  | nil => exact fun t ht => ht ▸ nil_mem_gapText
  | cons p ps ih =>
    rw [rowTexts_cons]
    cases p with
    | token text =>
      show word text * rowTexts ps ≤ gapText * word text * spelled (tokensOf ps)
      gcongr
      exact le_gap_mul _
    | gap plain required =>
      have hgap : (Piece.gap plain required).texts ≤ gapText := by
        cases required with
        | false => exact le_refl _
        | true => exact fun t ht => gapText_of_gap1Text ht
      exact le_trans (mul_le_mul' hgap ih) (le_of_eq (gap_mul_spelled _))

theorem values_tokens (depth n : Nat) (vs : List String) :
    tokensOf (vs.mapIdx fun i => valuePieces depth (n + i)).flatten
      = (vs.zipIdx n).flatMap fun v => [v.1, "=", toString v.2, ";"] := by
  induction vs generalizing n with
  | nil => rfl
  | cons v vs ih =>
    have hrest := ih (n + 1)
    simp only [Nat.add_assoc, Nat.add_comm 1] at hrest
    rw [List.mapIdx_cons, List.flatten_cons, tokensOf_append, hrest]
    rfl

theorem enum_tokens (depth : Nat) (e : EnumSketch) : tokensOf (e.pieces depth) = e.outline.tokens := by
  have hvalues := values_tokens depth 0 e.values
  simp only [Nat.zero_add] at hvalues
  rw [EnumSketch.pieces, tokensOf_append, tokensOf_append, hvalues]
  rfl

theorem field_tokens (f : FieldSketch) : tokensOf f.pieces = f.tokens := by
  rw [FieldSketch.pieces, FieldSketch.tokens, tokensOf_append]
  cases f.repeated <;> rfl

theorem member_tokens (m : MemberSketch) :
    tokensOf m.pieces = Sum.elim FieldSketch.tokens EnumOutline.tokens m.outline := by
  cases m with
  | field f => exact field_tokens f
  | enumeration e => exact enum_tokens 2 e

theorem declaration_tokens (d : DeclarationSketch) :
    tokensOf d.pieces = Sum.elim MessageOutline.tokens EnumOutline.tokens d.outline := by
  cases d with
  | enumeration e => exact enum_tokens 0 e
  | message name members =>
    have hmembers : tokensOf (members.flatMap MemberSketch.pieces)
        = (members.map MemberSketch.outline).flatMap (Sum.elim FieldSketch.tokens EnumOutline.tokens) := by
      rw [List.flatMap_def, tokensOf_flatten, List.flatMap_map, List.flatMap_map]
      exact List.flatMap_congr fun m _ => member_tokens m
    rw [DeclarationSketch.pieces, tokensOf_append, tokensOf_append, hmembers]
    rfl

/-- Gaps between rows hold no tokens. -/
theorem tokensOf_intersperse (rows : List (List Piece)) :
    tokensOf (rows.intersperse [loose "\n\n"]).flatten = rows.flatMap tokensOf := by
  induction rows with
  | nil => rfl
  | cons row rows ih =>
    cases rows with
    | nil =>
      show tokensOf (row ++ []) = tokensOf row ++ []
      rw [List.append_nil, List.append_nil]
    | cons next rows =>
      show tokensOf (row ++ ([loose "\n\n"] ++ _)) = tokensOf row ++ _
      rw [tokensOf_append, tokensOf_append, ih]
      rfl

/-- **The pieces of a sketch hold the tokens of its outline.** -/
theorem pieces_tokens (sketch : List DeclarationSketch) :
    tokensOf (pieces sketch) = (outlineOf sketch).tokens := by
  have hdeclarations : tokensOf
      ((sketch.map DeclarationSketch.pieces).intersperse [loose "\n\n"]).flatten
      = (outlineOf sketch).tokens := by
    rw [tokensOf_intersperse, FileOutline.tokens, outlineOf, List.flatMap_map, List.flatMap_map]
    exact List.flatMap_congr fun d _ => declaration_tokens d
  show tokensOf ([loose ""] ++ _ ++ [loose "\n"]) = _
  rw [tokensOf_append, tokensOf_append, hdeclarations]
  exact List.append_nil _

/-! ### Outlines that keep the rules -/

theorem outline_lawful {e : EnumSketch} (h : e.name ∉ reserved) : e.outline.Lawful where
  numbers := by
    show e.values.zipIdx.map Prod.snd = List.range e.values.zipIdx.length
    rw [List.zipIdx_map_snd, List.length_zipIdx, List.range_eq_range']
  allowed := h

theorem topNames_outlineOf (sketch : List DeclarationSketch) :
    (outlineOf sketch).topNames = sketch.map DeclarationSketch.name := by
  rw [FileOutline.topNames, outlineOf, List.map_map]
  exact List.map_congr_left fun d _ => by cases d <;> rfl

theorem sharedNames_outlineOf (sketch : List DeclarationSketch) : (outlineOf sketch).sharedNames
    = sketch.map DeclarationSketch.name ++ sketch.flatMap DeclarationSketch.sharedNames := by
  rw [FileOutline.sharedNames, topNames_outlineOf, outlineOf, List.flatMap_map]
  congr 1
  refine List.flatMap_congr fun d _ => ?_
  cases d with
  | message name members => exact enumNames_outline name members
  | enumeration e => exact valueNames_outline e

/-- Names that were taken before the members of a message were drawn are no names of its fields. -/
theorem MessageFits.lawful {declared : List String} {pool pool' : NamePool} {name : String}
    {members : List MemberSketch} (h : MessageFits declared pool members pool') (hname : name ∉ reserved)
    (hdeclared : ∀ top ∈ declared, fold top ∈ pool.taken) :
    MessageOutline.Lawful declared { name, members := members.map MemberSketch.outline } := by
  have hfields := h.fields.forall_fits
  constructor
  case allowed => exact hname
  case enums =>
    intro e he
    rw [enums_outline] at he
    obtain ⟨e', he', rfl⟩ := List.mem_map.mp he
    exact outline_lawful (h.allowed e' he')
  case fields_allowed =>
    rw [fields_outline]
    exact fun f hf => (hfields f hf).allowed
  case fields_distinct =>
    rw [fields_outline]
    exact h.fields.nodup_fold
  case fields_apart =>
    rw [fields_outline, enumNames_outline]
    intro f hf other hother hfold
    refine (hfields f hf).pool_new (hfold ▸ ?_)
    rcases List.mem_append.mp hother with htop | hshared
    · exact h.handsOut.subset (hdeclared other htop)
    · exact h.handsOut.fold_mem hshared
  case types =>
    rw [fields_outline, enums_outline, List.map_map]
    exact fun f hf => (hfields f hf).type
  case numbers =>
    rw [fields_outline]
    exact h.fields.pairwise_lt

/-- **The outline of a sketch that fits into its scopes keeps the rules.** -/
theorem FileFits.lawful {sketch : List DeclarationSketch} {pool : NamePool} (h : FileFits sketch pool) :
    (outlineOf sketch).Lawful := by
  have hdeclared : ∀ top ∈ sketch.map DeclarationSketch.name, fold top ∈ pool.taken :=
    fun top htop => h.handsOut.fold_mem htop
  constructor
  case distinct =>
    obtain ⟨pool', hpool'⟩ := h.declarations.handsOut
    rw [sharedNames_outlineOf]
    exact (h.handsOut.append hpool').nodup_fold
  case messages =>
    intro m hm
    obtain ⟨p, hp, hpm⟩ := List.mem_filterMap.mp hm
    obtain ⟨d, hd, rfl⟩ := List.mem_map.mp hp
    obtain ⟨pool₁, pool₂, hsub, hfits⟩ := h.declarations.exists_fits d hd
    rw [topNames_outlineOf]
    cases d with
    | enumeration e => cases hpm
    | message name members =>
      cases hpm
      exact MessageFits.lawful hfits (h.allowed _ hd) fun top htop => hsub (hdeclared top htop)
  case enums =>
    intro e he
    obtain ⟨p, hp, hpe⟩ := List.mem_filterMap.mp he
    obtain ⟨d, hd, rfl⟩ := List.mem_map.mp hp
    cases d with
    | message name members => cases hpe
    | enumeration e =>
      cases hpe
      exact outline_lawful (h.allowed _ hd)

/-! ### Sample files -/

/-- A text whose outline keeps the rules. -/
def IsLawful (text : String) : Prop := ∃ o : FileOutline, IsOutline o text ∧ o.Lawful

/-- A sketch whose texts are lawful. -/
theorem sketchFile_lawful {σ : Type} (r : Stream σ) : (sketchFile r).Gives fun sketch =>
    ∀ text : String, text.toList ∈ rowTexts (pieces sketch) → IsLawful text := by
  intro s sketch s' hdraw text htext
  obtain ⟨pool, hfits⟩ := sketchFile_fits r s sketch s' hdraw
  obtain ⟨-, hwell⟩ := sketchFile_gives r s sketch s' hdraw
  refine ⟨outlineOf sketch, ⟨?_, fun file => ?_⟩, hfits.lawful⟩
  · rw [← pieces_tokens]
    exact rowTexts_le_spelled _ htext
  · rw [outlineOf_tree]
    exact parse_of_mem_rowTexts hwell htext file

theorem plainSources_lawful {σ : Type} (r : Stream σ) {count : Nat} {start : σ} {texts : List String}
    (h : plainSources r count start = some texts) : ∀ text ∈ texts, IsLawful text := by
  obtain ⟨⟨all, s⟩, hall, htexts⟩ := Option.bind_eq_some_iff.mp h
  cases htexts
  obtain ⟨-, hlawful⟩ := (sketchFile_lawful r).times count _ _ _ hall
  exact List.forall_mem_map.mpr fun sketch hsketch =>
    hlawful sketch hsketch _ (plainText_mem (pieces_fit sketch))

theorem noisySources_lawful {σ τ : Type} (r : Stream σ) (filler : Stream τ) {count : Nat} {start : σ}
    {fillerStart : τ} {texts : List String}
    (h : noisySources r filler count start fillerStart = some texts) : ∀ text ∈ texts, IsLawful text := by
  obtain ⟨⟨all, s⟩, hall, h⟩ := Option.bind_eq_some_iff.mp h
  obtain ⟨⟨_, s'⟩, htexts, h⟩ := Option.bind_eq_some_iff.mp h
  cases h
  obtain ⟨-, hlawful⟩ := (sketchFile_lawful r).times count _ _ _ hall
  have hfilled := Draw.Gives.forEach (fun sketch _ => noisyText_gives filler (pieces sketch))
    _ _ _ htexts
  obtain ⟨hlength, hfilled⟩ := List.forall₂_iff_get.mp hfilled
  intro text htext
  obtain ⟨i, hi, rfl⟩ := List.getElem_of_mem htext
  have hi' : i < all.length := hlength ▸ hi
  exact hlawful _ (List.getElem_mem hi') _ (hfilled i hi' hi)

/-- **Sample files keep the rules.**  Whatever streams the files are drawn from, plain or noisy, every file has
an outline that keeps the rules of scopes and numbers.  So it is with the files of a seed. -/
theorem sources_lawful :
    (∀ {σ : Type} (r : Stream σ) (count : Nat) (start : σ) (texts : List String),
      plainSources r count start = some texts → ∀ text ∈ texts, IsLawful text) ∧
    (∀ {σ τ : Type} (r : Stream σ) (filler : Stream τ) (count : Nat) (start : σ) (fillerStart : τ)
      (texts : List String), noisySources r filler count start fillerStart = some texts →
      ∀ text ∈ texts, IsLawful text) ∧
    ∀ (seed count : Int) (noisy : Bool) (texts : List String), sources seed count noisy = some texts →
      ∀ text ∈ texts, IsLawful text := by
  refine ⟨fun r _ _ _ h => plainSources_lawful r h, fun r filler _ _ _ _ h =>
    noisySources_lawful r filler h, fun seed count noisy texts h => ?_⟩
  cases noisy with
  | false => exact plainSources_lawful Twister.stream h
  | true => exact noisySources_lawful Twister.stream Twister.stream h

theorem sources_lawful_nested :
    plainSources scripted 1 nestedScript = some [nestedSource] ∧ IsLawful nestedSource := by
  have hplain : plainSources scripted 1 nestedScript = some [nestedSource] := by decide +kernel
  exact ⟨hplain, sources_lawful.1 scripted 1 _ _ hplain nestedSource (List.mem_singleton_self _)⟩

end MessageIdl.Corpus
