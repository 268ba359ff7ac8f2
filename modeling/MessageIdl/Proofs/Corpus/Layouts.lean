import MessageIdl.Corpus.Sources
import MessageIdl.Proofs.Corpus.Sketches

/-!
# Sample files are texts of their sketches

A row of pieces stands for all texts that fill its gaps.  Whatever fills them, the text is one of the
tree of the sketch, so plain and noisy files are parsed to the same trees.

* `Piece.texts`, `rowTexts`: the texts of a piece and of a row.
* `rowTexts_le_fileText`: the texts of a sketch are texts of its tree.
* `plainText_mem`, `noisyText_gives`: plain fillings and noise fill the gaps.
* `sources_agree`: plain and noisy files from the same streams.
-/

namespace MessageIdl.Corpus

open MessageIdl.Schema
open scoped Computability

/-! ### Rows -/

/-- The texts of a piece. -/
def Piece.texts : Piece → Language Char
  | .token text => word text
  | .gap _ required => if required then gap1Text else gapText

/-- The texts of pieces in a row. -/
def rowTexts (ps : List Piece) : Language Char := (ps.map Piece.texts).prod

theorem rowTexts_nil : rowTexts [] = 1 := rfl

theorem rowTexts_cons (p : Piece) (ps : List Piece) :
    rowTexts (p :: ps) = p.texts * rowTexts ps := List.prod_cons

theorem rowTexts_append (ps qs : List Piece) :
    rowTexts (ps ++ qs) = rowTexts ps * rowTexts qs := by
  rw [rowTexts, List.map_append, List.prod_append, rowTexts, rowTexts]

@[simp] theorem texts_token (text : String) : (Piece.token text).texts = word text := rfl

@[simp] theorem texts_loose (plain : String) : (loose plain).texts = gapText := rfl

@[simp] theorem texts_tight : tight.texts = gap1Text := rfl

/-! ### Sketches as rows -/

theorem word_le_nameText {s : String} (hs : isIdentifier s = true) : word s ≤ nameText s :=
  fun _ ht => ⟨hs, ht⟩

theorem word_le_digitsText (n : Nat) : word (toString n) ≤ digitsText := by
  rintro _ rfl
  exact toString_mem_digitsText n

theorem le_gap_mul (L : Language Char) : L ≤ gapText * L := by
  intro x hx
  exact Language.append_mem_mul nil_mem_gapText hx

theorem value_rows {v : String} (hv : isIdentifier v = true) (depth n : Nat) :
    rowTexts (valuePieces depth n v) ≤ gapText * valueText { name := v } := by
  simp only [valuePieces, rowTexts_cons, rowTexts_nil, texts_loose, texts_token, texts_tight,
    valueText, numberedText, mul_one, mul_assoc]
  gcongr
  · exact word_le_nameText hv
  · exact word_le_digitsText n
  · exact le_mul_gap _

theorem values_rows {vs : List String} (hvs : ∀ v ∈ vs, isIdentifier v = true) (depth n : Nat) :
    rowTexts ((vs.mapIdx fun i => valuePieces depth (n + i)).flatten)
      ≤ ((vs.map fun v => ({ name := v } : EnumValue)).map fun v => gapText * valueText v).prod := by
  induction vs generalizing n with
  | nil => exact le_refl _
  | cons v vs ih =>
    obtain ⟨hv, hvs⟩ := List.forall_mem_cons.mp hvs
    have hrest := ih hvs (n + 1)
    simp only [Nat.add_assoc, Nat.add_comm 1] at hrest
    rw [List.mapIdx_cons, List.flatten_cons, rowTexts_append, List.map_cons, List.map_cons,
      List.prod_cons]
    exact mul_le_mul' (value_rows hv depth n) hrest

/-- Parts behind gaps, and one more gap. -/
theorem parts_rows {A : Type} {textOf : A → Language Char} (hgap : ∀ a, textOf a * gapText ≤ textOf a)
    (as : List A) :
    (as.map fun a => gapText * textOf a).prod * gapText ≤ gapText * (as.map textOf).prod := by
  refine le_trans ?_ (gap_absorb hgap as)
  rw [mul_assoc]
  exact le_gap_mul _

/-- A name and a body. -/
theorem body_rows {s : String} (hs : isIdentifier s = true) {ps : List Piece} {L : Language Char}
    (hps : rowTexts ps * gapText ≤ gapText * L) (plain : String) :
    rowTexts ([.token s, loose " ", .token "\x7b"] ++ ps ++ [loose plain, .token "\x7d"])
      ≤ bodyText s L := by
  calc rowTexts ([.token s, loose " ", .token "\x7b"] ++ ps ++ [loose plain, .token "\x7d"])
      = word s * gapText * word "\x7b" * (rowTexts ps * gapText) * word "\x7d" := by
        simp only [rowTexts_append, rowTexts_cons, rowTexts_nil, texts_loose, texts_token, mul_one,
          mul_assoc]
    _ ≤ nameText s * gapText * word "\x7b" * (gapText * L) * (word "\x7d" * gapText) := by
        gcongr
        · exact word_le_nameText hs
        · exact le_mul_gap _
    _ = bodyText s L := by simp only [bodyText, mul_assoc]

theorem enum_rows {e : EnumSketch} (he : e.tree.WellFormed) (depth : Nat) :
    rowTexts (e.pieces depth) ≤ enumText e.tree := by
  have hvalues : rowTexts (e.values.mapIdx (valuePieces depth)).flatten * gapText
      ≤ gapText * valuesText e.tree.values := by
    have hrows := values_rows (List.forall_mem_map.mp he.values) depth 0
    simp only [Nat.zero_add] at hrows
    refine le_trans (mul_le_mul_left hrows gapText) ?_
    refine le_trans (parts_rows valueText_gap e.tree.values) ?_
    exact mul_le_mul_right (fun t ht => ⟨he.nonempty, ht⟩) gapText
  have hbody := body_rows he.name hvalues (lineStart depth)
  calc rowTexts (e.pieces depth)
      = word "enum" * gap1Text * rowTexts ([.token e.name, loose " ", .token "\x7b"]
          ++ (e.values.mapIdx (valuePieces depth)).flatten
          ++ [loose (lineStart depth), .token "\x7d"]) := by
        rw [mul_assoc]
        rfl
    _ ≤ enumText e.tree := mul_le_mul_right hbody _

theorem field_rows {f : FieldSketch} (hf : f.tree.WellFormed) :
    rowTexts f.pieces ≤ fieldText f.tree := by
  have hmodifier : rowTexts (if f.repeated then [.token "repeated", tight] else [])
      = modifierText f.repeated := by
    cases f.repeated with
    | false => rfl
    | true =>
      show word "repeated" * (gap1Text * 1) = _
      rw [mul_one]
      rfl
  have htype : word f.type ≤ typeText f.repeated f.type := fun t ht =>
    ⟨hf.type, hf.modifier, ht⟩
  simp only [FieldSketch.pieces, rowTexts_append, hmodifier, rowTexts_cons, rowTexts_nil,
    texts_loose, texts_token, texts_tight, fieldText, numberedText, mul_one, mul_assoc]
  gcongr
  · exact le_refl (modifierText f.repeated)
  · exact htype
  · exact word_le_nameText hf.name
  · exact word_le_digitsText f.number
  · exact le_mul_gap _

theorem members_rows {members : List MemberSketch} (hmembers : ∀ m ∈ members, m.WellFormed) :
    rowTexts (members.flatMap MemberSketch.pieces) ≤ ((members.map MemberSketch.tree).map
      fun p => gapText * Sum.elim fieldText enumText p).prod := by
  induction members with
  | nil => exact le_refl _
  | cons m members ih =>
    obtain ⟨hm, hmembers⟩ := List.forall_mem_cons.mp hmembers
    rw [List.flatMap_cons, rowTexts_append, List.map_cons, List.map_cons, List.prod_cons]
    refine mul_le_mul' ?_ (ih hmembers)
    cases m with
    | field f => exact mul_le_mul_right (field_rows hm) gapText
    | enumeration e => exact mul_le_mul_right (enum_rows hm 2) gapText

theorem message_rows {name : String} {members : List MemberSketch}
    (h : (DeclarationSketch.message name members).WellFormed) :
    rowTexts (DeclarationSketch.message name members).pieces
      ≤ Sum.elim messageText enumText (DeclarationSketch.message name members).tree := by
  have hmembers : rowTexts (members.flatMap MemberSketch.pieces) * gapText
      ≤ gapText * mixedText fieldText enumText ((members.map MemberSketch.tree).filterMap Sum.getLeft?)
        ((members.map MemberSketch.tree).filterMap Sum.getRight?) := by
    refine le_trans (mul_le_mul_left (members_rows h.2) gapText) ?_
    refine le_trans (parts_rows (either_gap fieldText_gap enumText_gap) _) ?_
    exact mul_le_mul_right (fun t ht => ⟨_, rfl, rfl, ht⟩) gapText
  have hbody := body_rows h.1 hmembers (if members.isEmpty then "" else "\n")
  calc rowTexts (DeclarationSketch.message name members).pieces
      = word "message" * gap1Text * rowTexts ([.token name, loose " ", .token "\x7b"]
          ++ members.flatMap MemberSketch.pieces
          ++ [loose (if members.isEmpty then "" else "\n"), .token "\x7d"]) := by
        rw [mul_assoc]
        rfl
    _ ≤ word "message" * gapText * bodyText name _ := by
        gcongr
        exact fun t ht => gapText_of_gap1Text ht

theorem declaration_rows {d : DeclarationSketch} (hd : d.WellFormed) :
    rowTexts d.pieces ≤ Sum.elim messageText enumText d.tree := by
  cases d with
  | enumeration e => exact enum_rows hd 0
  | message name members => exact message_rows hd

/-- Declarations with gaps between them. -/
theorem declarations_rows {sketch : List DeclarationSketch} (h : ∀ d ∈ sketch, d.WellFormed) :
    rowTexts ((sketch.map DeclarationSketch.pieces).intersperse [loose "\n\n"]).flatten
      ≤ ((sketch.map DeclarationSketch.tree).map
        fun p => gapText * Sum.elim messageText enumText p).prod := by
  induction sketch with
  | nil => exact le_refl _
  | cons d sketch ih =>
    obtain ⟨hd, hrest⟩ := List.forall_mem_cons.mp h
    have hhead := le_trans (declaration_rows hd) (le_gap_mul _)
    cases sketch with
    | nil =>
      show rowTexts (d.pieces ++ []) ≤ _
      rw [List.append_nil, List.map_cons, List.map_cons, List.prod_cons]
      exact le_trans hhead (le_of_eq (mul_one _).symm)
    | cons d' sketch =>
      -- the gap behind this declaration is joined with the one in front of the next
      have hrow : rowTexts
          (((d :: d' :: sketch).map DeclarationSketch.pieces).intersperse [loose "\n\n"]).flatten
          = rowTexts d.pieces * (gapText * rowTexts
            (((d' :: sketch).map DeclarationSketch.pieces).intersperse [loose "\n\n"]).flatten) := by
        show rowTexts (d.pieces ++ ([loose "\n\n"] ++ _)) = _
        rw [rowTexts_append, List.singleton_append, rowTexts_cons]
        rfl
      have hjoin (L : Language Char) : gapText * (gapText * L) = gapText * L := by
        rw [← mul_assoc, gap_mul_gap]
      rw [hrow]
      refine le_trans (mul_le_mul' hhead (mul_le_mul_right (ih hrest) gapText)) (le_of_eq ?_)
      simp only [List.map_cons, List.prod_cons, mul_assoc, hjoin]

/-- **The texts of a sketch are texts of its tree.** -/
theorem rowTexts_le_fileText {sketch : List DeclarationSketch} (h : ∀ d ∈ sketch, d.WellFormed) :
    rowTexts (pieces sketch) ≤ fileText (fileOf sketch) := by
  calc rowTexts (pieces sketch)
      = gapText * rowTexts
          ((sketch.map DeclarationSketch.pieces).intersperse [loose "\n\n"]).flatten * gapText := by
        rw [pieces, List.cons_append, rowTexts_cons, rowTexts_append, rowTexts_cons, rowTexts_nil,
          mul_one, texts_loose, texts_loose, mul_assoc]
    _ ≤ gapText * ((sketch.map DeclarationSketch.tree).map
          fun p => gapText * Sum.elim messageText enumText p).prod * gapText := by
        gcongr
        exact declarations_rows h
    _ ≤ gapText * ((sketch.map DeclarationSketch.tree).map (Sum.elim messageText enumText)).prod :=
        gap_absorb (either_gap messageText_gap enumText_gap) _
    _ ≤ gapText * mixedText messageText enumText (fileOf sketch).messages (fileOf sketch).enums :=
        mul_le_mul_right (fun t ht => ⟨_, rfl, rfl, ht⟩) gapText
    _ ≤ fileText (fileOf sketch) := by
        intro t ht
        rw [← List.append_nil t]
        exact Language.append_mem_mul ht (.inl Language.nil_mem_one)

/-! ### Plain fillings -/

/-- A piece whose plain filling is one of its texts. -/
def Piece.Fits (p : Piece) : Prop := p.plainText.toList ∈ p.texts

theorem fits_token (text : String) : (Piece.token text).Fits := mem_word.mpr rfl

theorem fits_tight : tight.Fits := space_mem_gap1Text

theorem fits_loose {plain : String} (h : plain.toList ∈ gapText) : (loose plain).Fits := h

theorem fits_lineStart (n : Nat) : (loose (lineStart n)).Fits := by
  have h : '\n' :: List.replicate n ' ' ∈ gapText := gap_cons (by decide) (replicate_mem_gapText n)
  have htext : (lineStart n).toList = '\n' :: List.replicate n ' ' := by
    rw [lineStart, String.toList_append, String.toList_ofList, String.toList_ofList]
    rfl
  exact fits_loose (htext ▸ h)

theorem fits_empty : (loose "").Fits := fits_loose nil_mem_gapText

theorem fits_space : (loose " ").Fits := fits_loose space_mem_gapText

theorem fits_lineFeed : (loose "\n").Fits := fits_loose lineFeed_mem_gapText

theorem fits_emptyLine : (loose "\n\n").Fits :=
  fits_loose (gap_cons (by decide) lineFeed_mem_gapText)

theorem value_fits (depth n : Nat) (v : String) : ∀ p ∈ valuePieces depth n v, p.Fits := by
  simp only [valuePieces, List.forall_mem_cons]
  exact ⟨fits_lineStart _, fits_token _, fits_tight, fits_token _, fits_tight, fits_token _, fits_empty,
    fits_token _, fun p hp => absurd hp List.not_mem_nil⟩

theorem body_fits {s : String} {ps : List Piece} (hps : ∀ p ∈ ps, p.Fits) {plain : String}
    (hplain : (loose plain).Fits) :
    ∀ p ∈ [.token s, loose " ", .token "\x7b"] ++ ps ++ [loose plain, .token "\x7d"], p.Fits := by
  simp only [List.forall_mem_append, List.forall_mem_cons]
  exact ⟨⟨⟨fits_token _, fits_space, fits_token _, fun p hp => absurd hp List.not_mem_nil⟩, hps⟩,
    hplain, fits_token _, fun p hp => absurd hp List.not_mem_nil⟩

theorem enum_fits (depth : Nat) (e : EnumSketch) : ∀ p ∈ e.pieces depth, p.Fits := by
  have hvalues : ∀ p ∈ (e.values.mapIdx (valuePieces depth)).flatten, p.Fits := by
    intro p hp
    obtain ⟨row, hrow, hp⟩ := List.mem_flatten.mp hp
    obtain ⟨i, hi, rfl⟩ := List.mem_mapIdx.mp hrow
    exact value_fits depth i _ p hp
  exact List.forall_mem_cons.mpr ⟨fits_token _, List.forall_mem_cons.mpr
    ⟨fits_tight, body_fits hvalues (fits_lineStart depth)⟩⟩

theorem field_fits (f : FieldSketch) : ∀ p ∈ f.pieces, p.Fits := by
  have hmodifier : ∀ p ∈ (if f.repeated then [Piece.token "repeated", tight] else []), p.Fits := by
    split
    · simp only [List.forall_mem_cons]
      exact ⟨fits_token _, fits_tight, fun p hp => absurd hp List.not_mem_nil⟩
    · exact fun p hp => absurd hp List.not_mem_nil
  simp only [FieldSketch.pieces, List.forall_mem_append, List.forall_mem_cons]
  exact ⟨hmodifier, fits_token _, fits_tight, fits_token _, fits_space, fits_token _, fits_space,
    fits_token _, fits_empty, fits_token _, fun p hp => absurd hp List.not_mem_nil⟩

theorem declaration_fits (d : DeclarationSketch) : ∀ p ∈ d.pieces, p.Fits := by
  cases d with
  | enumeration e => exact enum_fits 0 e
  | message name members =>
    have hmembers : ∀ p ∈ members.flatMap MemberSketch.pieces, p.Fits := by
      intro p hp
      obtain ⟨m, -, hp⟩ := List.mem_flatMap.mp hp
      cases m with
      | field f => exact List.forall_mem_cons.mpr ⟨fits_lineStart 2, field_fits f⟩ p hp
      | enumeration e => exact List.forall_mem_cons.mpr ⟨fits_lineStart 2, enum_fits 2 e⟩ p hp
    have hlast : (loose (if members.isEmpty then "" else "\n")).Fits := by
      split
      · exact fits_empty
      · exact fits_lineFeed
    exact List.forall_mem_cons.mpr ⟨fits_token _, List.forall_mem_cons.mpr
      ⟨fits_tight, body_fits hmembers hlast⟩⟩

theorem declarations_fit (sketch : List DeclarationSketch) :
    ∀ p ∈ ((sketch.map DeclarationSketch.pieces).intersperse [loose "\n\n"]).flatten, p.Fits := by
  induction sketch with
  | nil => exact fun p hp => absurd hp List.not_mem_nil
  | cons d sketch ih =>
    cases sketch with
    | nil =>
      show ∀ p ∈ d.pieces ++ [], p.Fits
      rw [List.append_nil]
      exact declaration_fits d
    | cons d' sketch =>
      show ∀ p ∈ d.pieces ++ (loose "\n\n" :: _), p.Fits
      exact List.forall_mem_append.mpr
        ⟨declaration_fits d, List.forall_mem_cons.mpr ⟨fits_emptyLine, ih⟩⟩

theorem pieces_fit (sketch : List DeclarationSketch) : ∀ p ∈ pieces sketch, p.Fits := by
  refine List.forall_mem_cons.mpr ⟨fits_empty, List.forall_mem_append.mpr
    ⟨declarations_fit sketch, List.forall_mem_cons.mpr ⟨fits_lineFeed, ?_⟩⟩⟩
  exact fun p hp => absurd hp List.not_mem_nil

theorem plainText_mem {ps : List Piece} (h : ∀ p ∈ ps, p.Fits) :
    (plainText ps).toList ∈ rowTexts ps := by
  rw [plainText, String.toList_join]
  induction ps with
  | nil => exact Language.nil_mem_one
  | cons p ps ih =>
    obtain ⟨hp, hps⟩ := List.forall_mem_cons.mp h
    exact Language.append_mem_mul hp (ih hps)

/-! ### Noise -/

variable {σ τ : Type} (filler : Stream τ)

theorem blanks_mem_gapText {cs : List Char} (h : ∀ c ∈ cs, c ∈ blanks) : cs ∈ gapText := by
  induction cs with
  | nil => exact nil_mem_gapText
  | cons c cs ih =>
    obtain ⟨hc, hcs⟩ := List.forall_mem_cons.mp h
    exact gap_cons hc (ih hcs)

/-- Some blanks are a gap that is not empty. -/
theorem blanks_mem_gap1Text {cs : List Char} (hne : cs ≠ []) (h : ∀ c ∈ cs, c ∈ blanks) :
    cs ∈ gap1Text := by
  cases cs with
  | nil => exact absurd rfl hne
  | cons c cs =>
    obtain ⟨hc, hcs⟩ := List.forall_mem_cons.mp h
    exact Language.append_mem_mul (blank_mem_unitText hc) (blanks_mem_gapText hcs)

theorem unit_mem_gap1Text {u : List Char} (hu : u ∈ unitText) : u ∈ gap1Text := by
  rw [← List.append_nil u]
  exact Language.append_mem_mul hu nil_mem_gapText

/-- No character of a line comment ends its line. -/
theorem lineFeed_not_mem_commentCharacters : '\n' ∉ commentCharacters := by decide

/-- No character of a block comment closes it. -/
theorem star_not_mem_blockCharacters : '*' ∉ blockCharacters := by decide

theorem blanksUnit_gives : Draw.Gives
    (do String.ofList <$> times (filler.choose blanks) (← filler.between 1 3))
    fun s => s.toList ∈ gap1Text := by
  refine .bind (filler.between_gives (by decide)) fun n hn => .map ?_
  refine ((filler.choose_gives blanks).times n).imp fun cs hcs => ?_
  rw [String.toList_ofList]
  refine blanks_mem_gap1Text (fun hnil => ?_) hcs.2
  rw [hnil, List.length_nil] at hcs
  omega

theorem lineUnit_gives : Draw.Gives
    (do
      let body ← times (filler.choose commentCharacters) (← filler.between 0 20)
      pure ("//" ++ String.ofList body ++ "\n"))
    fun s => s.toList ∈ gap1Text := by
  refine .bind (.any _) fun n _ => .bind ((filler.choose_gives commentCharacters).times n)
    fun body hbody => .pure ?_
  have hline : '\n' ∉ body := fun h => lineFeed_not_mem_commentCharacters (hbody.2 _ h)
  have htext : ("//" ++ String.ofList body ++ "\n").toList = '/' :: '/' :: (body ++ ['\n']) := by
    simp
  rw [htext]
  exact unit_mem_gap1Text (lineComment_mem_unitText hline)

theorem blockUnit_gives : Draw.Gives
    (do
      let body ← times (filler.choose blockCharacters) (← filler.between 0 20)
      pure ("/*" ++ String.ofList body ++ "*/"))
    fun s => s.toList ∈ gap1Text := by
  refine .bind (.any _) fun n _ => .bind ((filler.choose_gives blockCharacters).times n)
    fun body hbody => .pure ?_
  have hopen : ¬ ['*', '/'] <:+: body := fun h =>
    star_not_mem_blockCharacters (hbody.2 _ (h.subset List.mem_cons_self))
  have htext : ("/*" ++ String.ofList body ++ "*/").toList
      = '/' :: '*' :: (body ++ ['*', '/']) := by
    simp
  rw [htext]
  exact unit_mem_gap1Text (blockComment_mem_unitText hopen)

theorem noiseUnit_gives : (noiseUnit filler).Gives fun s => s.toList ∈ gap1Text := by
  intro s unit s' h
  unfold noiseUnit at h
  rcases hk : filler.fraction s with ⟨k, s₁⟩
  simp only [hk] at h
  split at h
  · exact blanksUnit_gives filler _ _ _ h
  · split at h
    · exact lineUnit_gives filler _ _ _ h
    · exact blockUnit_gives filler _ _ _ h

theorem gap_append {a b : List Char} (ha : a ∈ gap1Text) (hb : b ∈ gapText) :
    a ++ b ∈ gap1Text := by
  obtain ⟨u, hu, g, hg, rfl⟩ := Language.mem_mul.mp ha
  rw [List.append_assoc]
  have hmem : g ++ b ∈ gapText * gapText := Language.append_mem_mul hg hb
  rw [gap_mul_gap] at hmem
  exact Language.append_mem_mul hu hmem

/-- Units in a row are a gap, which is not empty if there are any. -/
theorem units_mem {units : List String} (h : ∀ u ∈ units, u.toList ∈ gap1Text) :
    (String.join units).toList ∈ gapText ∧
      (units ≠ [] → (String.join units).toList ∈ gap1Text) := by
  rw [String.toList_join]
  induction units with
  | nil => exact ⟨nil_mem_gapText, fun hne => absurd rfl hne⟩
  | cons u units ih =>
    obtain ⟨hu, hunits⟩ := List.forall_mem_cons.mp h
    have hmem : u.toList ++ units.flatMap String.toList ∈ gap1Text := gap_append hu (ih hunits).1
    exact ⟨gapText_of_gap1Text hmem, fun _ => hmem⟩

/-- Noise fills a gap, and is not empty where the gap must not be. -/
theorem noise_gives (required : Bool) (plain : String) :
    (noise filler required).Gives fun s => s.toList ∈ (Piece.gap plain required).texts := by
  refine .bind (filler.between_gives (by cases required <;> decide)) fun n hn => .map ?_
  refine ((noiseUnit_gives filler).times n).imp fun units hunits => ?_
  obtain ⟨hgap, hgap1⟩ := units_mem hunits.2
  cases required with
  | false => exact hgap
  | true =>
    refine hgap1 fun hnil => ?_
    rw [hnil, List.length_nil] at hunits
    rw [if_pos rfl] at hn
    omega

theorem piece_gives (p : Piece) : (p.noisyText filler).Gives fun s => s.toList ∈ p.texts := by
  cases p with
  | token text => exact .pure (mem_word.mpr rfl)
  | gap plain required => exact noise_gives filler required plain

theorem noisyText_gives (ps : List Piece) :
    (noisyText filler ps).Gives fun s => s.toList ∈ rowTexts ps := by
  refine .map ((Draw.Gives.forEach fun p _ => piece_gives filler p).imp fun texts htexts => ?_)
  rw [String.toList_join]
  induction htexts with
  | nil => exact Language.nil_mem_one
  | cons hp _ ih => exact Language.append_mem_mul hp ih

/-! ### Files -/

/-- A text that is parsed to the tree of a sketch. -/
theorem parse_of_mem_rowTexts {sketch : List DeclarationSketch} {text : String}
    (hsketch : ∀ d ∈ sketch, d.WellFormed) (htext : text.toList ∈ rowTexts (pieces sketch))
    (file : String) : ∃ f, parse file text = .ok f ∧ f.Same (fileOf sketch) :=
  parse_of_mem_fileText file (rowTexts_le_fileText hsketch htext) rfl

/-- A sketch that declares something describes a tree that does. -/
theorem fileOf_declares {sketch : List DeclarationSketch} (hne : sketch ≠ []) :
    (fileOf sketch).messages ≠ [] ∨ (fileOf sketch).enums ≠ [] := by
  cases sketch with
  | nil => exact absurd rfl hne
  | cons d sketch =>
    cases d with
    | message name members => exact .inl (List.cons_ne_nil _ _)
    | enumeration e => exact .inr (List.cons_ne_nil _ _)

theorem declares_of_same {f g : SchemaFile} (h : f.Same g) (hg : g.messages ≠ [] ∨ g.enums ≠ []) :
    f.messages ≠ [] ∨ f.enums ≠ [] := by
  have hmessages : f.messages.map Message.bare = g.messages.map Message.bare :=
    congrArg SchemaFile.messages h
  have henums : f.enums.map Enumeration.bare = g.enums.map Enumeration.bare :=
    congrArg SchemaFile.enums h
  refine hg.imp (fun hne hnil => hne ?_) fun hne hnil => hne ?_
  · rw [hnil, List.map_nil] at hmessages
    exact List.map_eq_nil_iff.mp hmessages.symm
  · rw [hnil, List.map_nil] at henums
    exact List.map_eq_nil_iff.mp henums.symm

/-- Two lists of `count` texts that say the same, place by place, and declare something. -/
structure Agree (count : Nat) (plain noisy : List String) : Prop where
  plain_length : plain.length = count
  noisy_length : noisy.length = count
  same : ∀ i < count, ∃ a b, plain[i]? = some a ∧ noisy[i]? = some b ∧ ∀ file, ∃ f g,
    parse file a = .ok f ∧ parse file b = .ok g ∧ f.Same g ∧ (f.messages ≠ [] ∨ f.enums ≠ [])

theorem agree_of_draws (r : Stream σ) (filler : Stream τ) {count : Nat} {start : σ} {fillerStart : τ}
    {plain noisy : List String} (hplain : plainSources r count start = some plain)
    (hnoisy : noisySources r filler count start fillerStart = some noisy) :
    Agree count plain noisy := by
  obtain ⟨⟨all, s⟩, hall, hplain⟩ := Option.bind_eq_some_iff.mp hplain
  cases hplain
  obtain ⟨⟨all', s'⟩, hall', hnoisy⟩ := Option.bind_eq_some_iff.mp hnoisy
  cases hall.symm.trans hall'
  obtain ⟨⟨_, t'⟩, htexts, hnoisy⟩ := Option.bind_eq_some_iff.mp hnoisy
  cases hnoisy
  obtain ⟨hcount, hsketches⟩ := (sketchFile_gives r).times count _ _ _ hall
  have hfilled := Draw.Gives.forEach (fun sketch _ => noisyText_gives filler (pieces sketch))
    _ _ _ htexts
  obtain ⟨hlength, hfilled⟩ := List.forall₂_iff_get.mp hfilled
  refine ⟨?_, ?_, fun i hi => ?_⟩
  · rw [List.length_map, hcount]
  · rw [← hlength, hcount]
  · have hi₁ : i < all.length := hcount ▸ hi
    have hi₂ : i < noisy.length := hlength ▸ hi₁
    obtain ⟨hne, hwell⟩ := hsketches _ (List.getElem_mem hi₁)
    refine ⟨_, _, List.getElem?_map.trans (congrArg _ (List.getElem?_eq_getElem hi₁)),
      List.getElem?_eq_getElem hi₂, fun file => ?_⟩
    obtain ⟨f, hf, hsame⟩ := parse_of_mem_rowTexts hwell (plainText_mem (pieces_fit _)) file
    obtain ⟨g, hg, hsame'⟩ := parse_of_mem_rowTexts hwell (hfilled i hi₁ hi₂) file
    exact ⟨f, g, hf, hg, hsame.trans hsame'.symm, declares_of_same hsame (fileOf_declares hne)⟩

/-- **Plain and noisy files say the same.**  Whatever streams the files are drawn from, if the drawing
ends, then there are as many files of either kind as were asked for, and the plain and the noisy file at
each place are parsed to the same tree, which declares something.  So it is with the files of a seed. -/
theorem sources_agree :
    (∀ {σ τ : Type} (r : Stream σ) (filler : Stream τ) (count : Nat) (start : σ) (fillerStart : τ)
      (plain noisy : List String), plainSources r count start = some plain →
      noisySources r filler count start fillerStart = some noisy → Agree count plain noisy) ∧
    ∀ (seed count : Int) (plain noisy : List String), sources seed count false = some plain →
      sources seed count true = some noisy → Agree count.toNat plain noisy :=
  ⟨fun r filler _ _ _ _ _ hplain hnoisy => agree_of_draws r filler hplain hnoisy,
    fun _ _ _ _ hplain hnoisy => agree_of_draws Twister.stream Twister.stream hplain hnoisy⟩

/-- A stream of given numbers, each brought into its range, with zeros behind them. -/
def scripted : Stream (List Nat) where
  below n s := if n = 0 then none else some (s.headD 0 % n, s.tail)
  fraction s := (s.headD 0 % fractions, s.tail)
  patience := 1
  below_lt n k s s' h := by
    split at h
    · cases h
    · rename_i hn
      cases h
      exact Nat.mod_lt _ (Nat.pos_of_ne_zero hn)
  fraction_lt s := Nat.mod_lt _ (by decide : 0 < fractions)

/-- Numbers from which a message with an enumeration and a field is drawn. -/
def nestedScript : List Nat := [0, 0, 0, 0, 3, 1, 0, 1, 1, 0, 0, 0, 0, 2, 0, 0]

/-- Numbers for noise: a line comment, a block comment and a blank, then an empty block comment, and single
blanks where a gap must not be empty. -/
def noiseScript : List Nat :=
  [3, oneHalf, 2, 0, 1, oneHalf + oneQuarter, 1, 5, 0, 0, 0, 0, oneHalf + oneQuarter, 0]

/-- The message with plain gaps. -/
def nestedSource : String :=
  "message A \x7b\n  enum B \x7b\n    B_0 = 0;\n    B_1 = 1;\n  \x7d\n  repeated double c = 1;\n\x7d\n"

/-- The message with noise in its gaps. -/
def nestedNoise : String :=
  "//ab\n/*f*/\tmessage/**/A\x7benum\tB\x7bB_0\t=\t0;B_1\t=\t1;\x7drepeated\tdouble\tc=1;\x7d"

/-- The two layouts of a message with members. -/
theorem sources_agree_nested :
    plainSources scripted 1 nestedScript = some [nestedSource] ∧
      noisySources scripted scripted 1 nestedScript noiseScript = some [nestedNoise] ∧
      Agree 1 [nestedSource] [nestedNoise] := by
  have hplain : plainSources scripted 1 nestedScript = some [nestedSource] := by decide +kernel
  have hnoisy : noisySources scripted scripted 1 nestedScript noiseScript = some [nestedNoise] := by
    decide +kernel
  exact ⟨hplain, hnoisy, sources_agree.1 scripted scripted 1 _ _ _ _ hplain hnoisy⟩

end MessageIdl.Corpus
