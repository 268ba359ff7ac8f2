import MessageIdl.Proofs.Peg.Failures
import MessageIdl.Proofs.Schema.Continuing
import MessageIdl.Proofs.Schema.Parsing

/-!
# Suggestions of parse errors

Every failure on the way of a rule leads on, whatever alternatives were tried before it and whatever was
read in front of it.  A parse error therefore stands behind the front of some schema, and each thing
that it expects can come next.

* `guides_gap`, `guides_name`, …: what stands between and in front of the parts of a tree.
* `guides_field`, `guides_value`, `guides_enum`, `guides_message`: the rules of the parts of a tree.
* `misses_file`: the failures of a whole text.
* `rejected_viable`: the front of the text up to a parse error, and what may come next.
-/

namespace MessageIdl.Schema

open MessageIdl.Peg MessageIdl.Source
open scoped Computability

variable {find : String → Option (Expr Node)} {lines : LineIndex}

/-! ### Gaps -/

/-- Texts without the closing mark of a comment. -/
def noCloseText : Language Char := {s | ¬ ['*', '/'] <:+: s}

theorem guides_commentText : Guides find lines (.pattern commentTextPattern) noCloseText where
  inhabited := ⟨[], show ¬ ['*', '/'] <:+: [] by decide⟩
  matched c stop v hy := by
    obtain ⟨n, hn, rfl, -⟩ := (Ensures.pattern commentTextPattern).matched hy
    cases hn
    exact .of_mem (not_infix_take_beforeClose c.rest) (List.take_append_drop _ _).symm
  missed c pos label hm := absurd hm (not_misses_pattern rfl)

theorem guides_blockComment : Guides find lines blockComment blockCommentText := by
  have hrow : Guides find lines blockComment (word "/*" * (noCloseText * word "*/")) :=
    (Guides.literal "/*" (by decide)).row_cons
      (guides_commentText.row_cons (Guides.literal "*/" (by decide)).row_one)
  refine hrow.mono fun x hx => ?_
  obtain ⟨_, rfl, _, htail, rfl⟩ := Language.mem_mul.mp hx
  obtain ⟨s, hs, _, rfl, rfl⟩ := Language.mem_mul.mp htail
  exact ⟨s, hs, rfl⟩

theorem steers_gapUnit : Steers find lines gapUnit unitText := by
  refine .choice fun e he => ?_
  simp only [List.mem_cons, List.not_mem_nil, or_false] at he
  rcases he with rfl | rfl | rfl
  · exact .pattern (w := [' ']) (y := []) (by simp [labelledPatterns]) rfl (by decide)
      (blank_mem_unitText (by decide))
  · exact .pattern (w := ['/', '/']) (y := ['\n']) (by simp [labelledPatterns]) rfl (by decide)
      (lineComment_mem_unitText (s := []) (by decide))
  · exact guides_blockComment.missed.mono fun x hx => .inr hx

/-- A comment at the end of the input may go on to the end of its line. -/
theorem guides_gapUnit : Guides find lines gapUnit unitText where
  inhabited := ⟨[' '], blank_mem_unitText (by decide)⟩
  matched c stop v hy := by
    rcases gapUnit_ensures.matched hy with ⟨u, hu, hc⟩ | ⟨⟨s, hs, hc⟩, hstop⟩
    · exact .of_mem hu hc
    · rw [hc, hstop]
      refine ⟨_, (List.append_nil _).symm, .inr ⟨rfl, List.cons_ne_nil _ _, fun w hw => ?_⟩⟩
      have hmem : '/' :: '/' :: (s ++ w ++ ['\n']) ∈ unitText :=
        lineComment_mem_unitText (by simp [hs, hw])
      simpa only [List.cons_append, List.append_assoc] using hmem
  missed := steers_gapUnit

theorem guides_gap : Guides rules.find lines gap gapText :=
  (guides_gapUnit.row_one.action.ref find_gapRule).many

theorem guides_gap1 : Guides rules.find lines gap1 gap1Text :=
  (guides_gapUnit.row_one.action.ref find_gapRule).many1

/-! ### Names, numbers and types -/

/-- The names. -/
def namesText : Language Char := ⨆ s, nameText s

/-- The types that may stand behind the modifier, or those that may stand without it. -/
def typesText (repeated : Bool) : Language Char := ⨆ s, typeText repeated s

theorem x_mem_namesText : "x".toList ++ [] ∈ namesText :=
  Language.mem_iSup.mpr ⟨"x", by decide, rfl⟩

theorem steers_name {L : Language Char} {y : List Char} (h : "x".toList ++ y ∈ L) :
    Steers find lines name L :=
  .pattern (by simp [labelledPatterns]) rfl (by decide) h

theorem guides_name : Guides find lines name namesText where
  inhabited := ⟨_, x_mem_namesText⟩
  matched c stop v hy := by
    obtain ⟨s, -, hs, hc⟩ := name_ensures.matched hy
    exact .of_mem (Language.mem_iSup.mpr ⟨s, hs, rfl⟩) hc
  missed := steers_name x_mem_namesText

theorem one_mem_digitsText : ['1'] ++ [] ∈ digitsText :=
  ⟨List.cons_ne_nil _ _, List.forall_mem_singleton.mpr rfl⟩

theorem guides_number : Guides find lines number digitsText where
  inhabited := ⟨_, one_mem_digitsText⟩
  matched c stop v hy := by
    obtain ⟨d, hd, hc⟩ := digits_ensures.matched hy
    exact .of_mem hd hc
  missed := .pattern (by simp [labelledPatterns]) rfl (by decide) one_mem_digitsText

theorem mem_typesText {b : Bool} {s : String} (hs : IsTypeName s)
    (hne : b = false → s ≠ "repeated") : s.toList ∈ typesText b :=
  Language.mem_iSup.mpr ⟨s, hs, hne, rfl⟩

/-- Each alternative of a type begins a type that needs no modifier. -/
theorem steers_fieldType : Steers rules.find lines (.ref "FieldType") (typesText false) := by
  have hkeywords : ∀ k ∈ Scalar.all, '\n' ∉ k.keyword.toList ∧ k.keyword ≠ "repeated" := by decide
  refine Steers.ref find_fieldTypeRule (.choice fun e he => ?_)
  rcases List.mem_append.mp he with he | he
  · obtain ⟨k, hk, rfl⟩ := List.mem_map.mp he
    obtain ⟨hline, hne⟩ := hkeywords k hk
    refine (Steers.literal (y := []) hline ?_).row_one.action
    rw [List.append_nil]
    exact mem_typesText (.inl ⟨k, hk, rfl⟩) fun _ => hne
  · cases List.mem_singleton.mp he
    refine (steers_name (y := []) ?_).row_one.action
    exact mem_typesText (s := "x") (.inr (by decide)) fun _ => by decide

theorem typesText_le (b : Bool) : typesText false ≤ typesText b := by
  refine iSup_le fun s => le_iSup_of_le s ?_
  rintro x ⟨hs, hne, rfl⟩
  exact ⟨hs, fun _ => hne rfl, rfl⟩

theorem guides_fieldType : Guides rules.find lines (.ref "FieldType") (typesText true) where
  inhabited := ⟨_, mem_typesText enum_isTypeName nofun⟩
  matched c stop v hy := by
    obtain ⟨s, -, hs, hc⟩ := fieldType_ensures.matched hy
    exact .of_mem (mem_typesText hs nofun) hc
  missed := steers_fieldType.mono (typesText_le true)

/-! ### Fields -/

theorem guides_repeated : Guides rules.find lines (.ref "Repeated") (modifierText true) :=
  ((Guides.literal "repeated" (by decide)).row_cons guides_gap1.row_one).action.ref find_repeatedRule

/-- The types with their modifiers. -/
def typedText : Language Char := ⨆ b, modifierText b * typesText b

theorem modifier_mul_le (b : Bool) (L : Language Char) :
    modifierText b * (typesText b * L) ≤ typedText * L := by
  rw [← mul_assoc]
  exact mul_le_mul_left (le_iSup (fun b => modifierText b * typesText b) b) L

theorem types_mul_le (L : Language Char) : typesText false * L ≤ typedText * L := by
  have hle := modifier_mul_le false L
  rwa [show modifierText false = 1 from rfl, one_mul] at hle

/-- Where the modifier was not taken, no gap follows its word. -/
theorem not_gap1_behind_word {c mid stop : Cursor} {v : Value Node}
    (hfail : Yields rules.find lines (.ref "Repeated") c .failed) (hr : c.Reaches mid)
    (hc : c.rest = "repeated".toList ++ mid.rest) :
    ¬ Yields rules.find lines gap1 mid (.matched stop v) := by
  intro hgap
  have hmid : mid = c.advance "repeated".length := hr.eq_advance hc
  have hrow : Yields rules.find lines (.seq [terminal .repeated, gap1]) c _ :=
    .seq_cons (.literal ⟨_, hc.symm⟩) (.seq_cons (hmid ▸ hgap) .seq_nil)
  have hmatch : Yields rules.find lines (.ref "Repeated") c (.matched stop .flag) :=
    .ref find_repeatedRule (.action hrow rfl)
  cases hmatch.deterministic hfail

section Typed

variable {es : List (Expr Node)} {M : Language Char}

/-- Without the modifier, a type that is followed by a gap is not its word. -/
theorem passes_plain {c mid stop : Cursor} {v x : Value Node}
    (hfail : Yields rules.find lines (.ref "Repeated") c .failed)
    (htype : Yields rules.find lines (.ref "FieldType") c (.matched mid x))
    (hgap : Yields rules.find lines gap1 mid (.matched stop v)) :
    Passes (typesText false) c.rest mid.rest := by
  obtain ⟨s, -, hs, hc⟩ := fieldType_ensures.matched htype
  refine .of_mem (mem_typesText hs fun _ => ?_) hc
  rintro rfl
  exact not_gap1_behind_word hfail htype.reaches hc hgap

/-- Without the modifier, what is missing behind a type is missing behind a modifier, if the type is its
word. -/
theorem leads_behind_type {c mid : Cursor} {x : Value Node} {pos : Nat} {label : String}
    (hes : Guides rules.find lines (.seq es) M)
    (hfail : Yields rules.find lines (.ref "Repeated") c .failed)
    (htype : Yields rules.find lines (.ref "FieldType") c (.matched mid x))
    (hm : Misses rules.find lines (.seq (gap1 :: es)) mid pos label) :
    Leads (typedText * (gap1Text * M)) c pos label := by
  have hgap := guides_gap1.row_cons hes
  obtain ⟨s, -, hs, hc⟩ := fieldType_ensures.matched htype
  by_cases hne : s = "repeated"
  · subst hne
    cases hm with
    | seq_head hm =>
      have hword : Passes (word "repeated") c.rest mid.rest := .of_mem (mem_word.mpr rfl) hc
      obtain ⟨y, hy⟩ := (guides_fieldType.row_cons hgap).inhabited
      have hleads := (guides_gap1.missed _ _ _ hm).behind htype.reaches hword
      exact (hleads.before hy).mono (modifier_mul_le true _)
    | seq_tail hgap _ => exact absurd hgap (not_gap1_behind_word hfail htype.reaches hc)
  · have hplain : Passes (typesText false) c.rest mid.rest :=
      .of_mem (mem_typesText hs fun _ => hne) hc
    exact ((hgap.missed _ _ _ hm).behind htype.reaches hplain).mono (types_mul_le _)

/-- **The front of a field.**  The word of the modifier alone is no type: a gap behind it makes it the
modifier, and only a gap is expected there. -/
theorem guides_typed (hes : Guides rules.find lines (.seq es) M) :
    Guides rules.find lines (.seq (.optional (.ref "Repeated") :: .ref "FieldType" :: gap1 :: es))
      (typedText * (gap1Text * M)) := by
  have hgap := guides_gap1.row_cons hes
  have htyped := guides_fieldType.row_cons hgap
  obtain ⟨y, hy⟩ := hgap.inhabited
  refine ⟨?_, fun c stop v hmatch => ?_, fun c pos label hm => ?_⟩
  · have htype : "enum".toList ∈ typesText false := mem_typesText enum_isTypeName (by decide)
    exact ⟨_, types_mul_le _ (Language.append_mem_mul htype hy)⟩
  · obtain ⟨mid, x, xs, hopt, hrow, rfl⟩ := hmatch.of_seq_cons
    cases hopt with
    | optional_present hmod _ =>
      exact ((guides_repeated.matched _ _ _ hmod).mul (htyped.matched _ _ _ hrow)).mono
        (modifier_mul_le true _)
    | optional_absent hfail =>
      -- the gap that was matched behind the type keeps the type from being the word of the modifier
      obtain ⟨mid, x, xs, htype, hrow, -⟩ := hrow.of_seq_cons
      have hrest := hgap.matched _ _ _ hrow
      obtain ⟨_, _, _, hgap1, -, -⟩ := hrow.of_seq_cons
      exact ((passes_plain hfail htype hgap1).mul hrest).mono (types_mul_le _)
  · cases hm with
    | seq_head hm =>
      obtain ⟨x, hx⟩ := htyped.inhabited
      exact ((guides_repeated.missed _ _ _ (misses_optional.mp hm)).before hx).mono
        (modifier_mul_le true _)
    | seq_tail hopt hm =>
      cases hopt with
      | optional_present hmod _ =>
        exact ((htyped.missed _ _ _ hm).behind hmod.reaches (guides_repeated.matched _ _ _ hmod)).mono
          (modifier_mul_le true _)
      | optional_absent hfail =>
        cases hm with
        | seq_head hm => exact ((steers_fieldType _ _ _ hm).before hy).mono (types_mul_le _)
        | seq_tail htype hm => exact leads_behind_type hes hfail htype hm

end Typed

theorem guides_numbered :
    Guides rules.find lines (.seq [number, gap, terminal .semicolon, gap]) numberedText :=
  (guides_number.row_cons (guides_gap.row_cons ((Guides.literal ";" (by decide)).row_cons
    guides_gap.row_one))).mono (by simp only [numberedText, mul_assoc]; rfl)

theorem guides_field : Guides rules.find lines (.ref "FieldDefinition") (⨆ f, fieldText f) := by
  have hrow : Guides rules.find lines (.seq _) _ := guides_typed <|
    guides_name.row_cons <| guides_gap.row_cons <| (Guides.literal "=" (by decide)).row_cons <|
    guides_gap.row_cons guides_numbered
  refine hrow.action.ref find_fieldRule |>.mono ?_
  simp only [typedText, typesText, namesText, Language.iSup_mul, Language.mul_iSup]
  refine iSup_le fun s => iSup_le fun b => iSup_le fun type => ?_
  refine le_iSup_of_le { name := s, type, repeated := b } ?_
  simp only [fieldText, mul_assoc]
  rfl

/-! ### Values, enumerations and messages -/

theorem guides_value : Guides rules.find lines (.ref "EnumValue") (⨆ v, valueText v) := by
  have hrow : Guides rules.find lines (.seq _) _ :=
    guides_name.row_cons <| guides_gap1.row_cons <| (Guides.literal "=" (by decide)).row_cons <|
    guides_gap1.row_cons guides_numbered
  refine hrow.action.ref find_enumValueRule |>.mono ?_
  simp only [namesText, Language.iSup_mul]
  refine iSup_le fun s => le_iSup_of_le { name := s } ?_
  simp only [valueText, mul_assoc]
  rfl

/-- Texts of any nodes in a row are texts of some list of nodes. -/
theorem kstar_iSup_le {A : Type} (textOf : A → Language Char) :
    (⨆ a, textOf a)∗ ≤ ⨆ as : List A, (as.map textOf).prod := by
  intro x hx
  obtain ⟨parts, rfl, hparts⟩ := Language.mem_kstar.mp hx
  clear hx
  refine Language.mem_iSup.mpr ?_
  induction parts with
  | nil => exact ⟨[], Language.nil_mem_one⟩
  | cons part parts ih =>
    obtain ⟨a, ha⟩ := Language.mem_iSup.mp (hparts part List.mem_cons_self)
    obtain ⟨as, has⟩ := ih fun y hy => hparts y (List.mem_cons_of_mem part hy)
    exact ⟨a :: as, Language.append_mem_mul ha has⟩

theorem guides_values :
    Guides rules.find lines (.repeated 1 (.ref "EnumValue")) (⨆ vs, valuesText vs) := by
  refine guides_value.many1.mono ((mul_le_mul_right (kstar_iSup_le valueText) _).trans ?_)
  simp only [Language.iSup_mul, Language.mul_iSup]
  refine iSup_le fun vs => iSup_le fun v => le_iSup_of_le (v :: vs) fun x hx => ?_
  exact ⟨List.cons_ne_nil v vs, hx⟩

theorem guides_bodyRow {A : Type} {items : Expr Node} {L : A → Language Char}
    (h : Guides rules.find lines items (⨆ a, L a)) :
    Guides rules.find lines (.seq (bodyRow items)) (⨆ s, ⨆ a, bodyText s (L a)) := by
  have hrow := guides_name.row_cons <| guides_gap.row_cons <|
    (Guides.literal "\x7b" (by decide)).row_cons <| guides_gap.row_cons <| h.row_cons <|
    (Guides.literal "\x7d" (by decide)).row_cons guides_gap.row_one
  refine hrow.mono ?_
  simp only [namesText, bodyText, Language.iSup_mul, Language.mul_iSup, mul_assoc]
  rw [iSup_comm]

theorem guides_enum : Guides rules.find lines (.ref "EnumDefinition") (⨆ e, enumText e) := by
  have hrow : Guides rules.find lines (.seq _) _ := (Guides.literal "enum" (by decide)).row_cons <|
    guides_gap1.row_cons <| guides_bodyRow guides_values
  refine hrow.action.ref find_enumRule |>.mono ?_
  simp only [Language.mul_iSup]
  refine iSup_le fun s => iSup_le fun vs => le_iSup_of_le { name := s, values := vs } ?_
  simp only [enumText, mul_assoc]
  rfl

section Mixed

variable {A B : Type} {textA : A → Language Char} {textB : B → Language Char} {ruleA ruleB : Expr Node}

theorem guides_mixed {rule : String}
    (hf : rules.find rule = some (eitherRule ruleA ruleB))
    (hA : Guides rules.find lines ruleA (⨆ a, textA a))
    (hB : Guides rules.find lines ruleB (⨆ b, textB b)) :
    Guides rules.find lines (.repeated 0 (.ref rule))
      (⨆ parts : List (A ⊕ B), mixedText textA textB (parts.filterMap Sum.getLeft?)
        (parts.filterMap Sum.getRight?)) := by
  have hA : Guides rules.find lines (boundBody passOn [ruleA]) (⨆ p, Sum.elim textA textB p) :=
    hA.row_one.action.mono (iSup_le fun a => le_iSup (Sum.elim textA textB) (.inl a))
  have hB : Guides rules.find lines (boundBody passOn [ruleB]) (⨆ p, Sum.elim textA textB p) :=
    hB.row_one.action.mono (iSup_le fun b => le_iSup (Sum.elim textA textB) (.inr b))
  refine ((hA.choice_two hB).ref hf).many.mono ((kstar_iSup_le _).trans ?_)
  exact iSup_mono fun parts x hx => ⟨parts, rfl, rfl, hx⟩

end Mixed

theorem guides_message : Guides rules.find lines (.ref "MessageDefinition") (⨆ m, messageText m) := by
  have hrow : Guides rules.find lines (.seq _) _ :=
    (Guides.literal "message" (by decide)).row_cons <| guides_gap.row_cons <|
    guides_bodyRow (guides_mixed find_memberRule guides_field guides_enum)
  refine hrow.action.ref find_messageRule |>.mono ?_
  simp only [Language.mul_iSup]
  refine iSup_le fun s => iSup_le fun parts => le_iSup_of_le
    { name := s, fields := parts.filterMap Sum.getLeft?, enums := parts.filterMap Sum.getRight? } ?_
  simp only [messageText, mul_assoc]
  rfl

/-! ### Files -/

/-- The texts of declarations in a row. -/
def declarationsText : Language Char :=
  ⨆ parts : List (Message ⊕ Enumeration), mixedText messageText enumText
    (parts.filterMap Sum.getLeft?) (parts.filterMap Sum.getRight?)

/-- The texts of files that do not end in an open comment. -/
def closedText : Language Char := gapText * declarationsText

theorem guides_declarations :
    Guides rules.find lines (.repeated 0 (.ref "MessageOrEnum")) declarationsText :=
  guides_mixed find_declarationRule guides_message guides_enum

/-- **The failures of a text** lead on, except that of the end of the input, in front of which a whole
file stands. -/
theorem misses_file {c : Cursor} {pos : Nat} {label : String}
    (hm : Misses rules.find lines (.ref "ProtocolFile") c pos label) :
    Leads closedText c pos label ∨ label = endLabel ∧ ∃ u r,
      c.rest = u ++ r ∧ pos = c.offset + u.length ∧ u ∈ closedText := by
  have hm : Misses rules.find lines
      (.seq [gap, .repeated 0 (.ref "MessageOrEnum"), .endOfInput]) c pos label :=
    misses_action.mp ((misses_ref find_fileRule).mp hm)
  have hdeclarations : Guides rules.find lines _ _ := guides_declarations
  obtain ⟨x, hx⟩ := hdeclarations.inhabited
  cases hm with
  | seq_head hm => exact .inl ((guides_gap.missed _ _ _ hm).before hx)
  | seq_tail hgap hm =>
    have hpasses := guides_gap.matched _ _ _ hgap
    cases hm with
    | seq_head hm => exact .inl ((hdeclarations.missed _ _ _ hm).behind hgap.reaches hpasses)
    | seq_tail hitems hm =>
      obtain ⟨u, hc, hu⟩ := hpasses.mul (hdeclarations.matched _ _ _ hitems)
      have hmid := (hgap.reaches.trans hitems.reaches).eq_advance hc
      cases hm with
      | seq_tail _ hm => exact absurd hm not_misses_seq_nil
      | seq_head hm =>
        cases hm with
        | endOfInput hne =>
          refine .inr ⟨rfl, u, _, hc, by rw [hmid]; rfl, hu.resolve_right fun h => ?_⟩
          exact hne h.1

/-- `x` is the front of a text that is parsed. -/
def Viable (file : String) (x : List Char) : Prop :=
  ∃ y f, parse file (String.ofList (x ++ y)) = .ok f

theorem exists_parse {x : List Char} (hx : x ∈ closedText) (file : String) :
    ∃ f, parse file (String.ofList x) = .ok f := by
  obtain ⟨g, hg, t, ht, rfl⟩ := Language.mem_mul.mp hx
  obtain ⟨parts, ht⟩ := Language.mem_iSup.mp ht
  have hfile : (String.ofList (g ++ t)).toList ∈ fileText
      { messages := parts.filterMap Sum.getLeft?, enums := parts.filterMap Sum.getRight? } := by
    rw [String.toList_ofList, ← List.append_nil (g ++ t)]
    exact Language.append_mem_mul (Language.append_mem_mul hg ht) (.inl Language.nil_mem_one)
  obtain ⟨f, hf, -⟩ := parse_of_mem_fileText file hfile rfl
  exact ⟨f, hf⟩

theorem viable_of_mem {x y : List Char} (h : x ++ y ∈ closedText) (file : String) :
    Viable file x :=
  ⟨y, exists_parse h file⟩

theorem nil_mem_closedText : [] ∈ closedText :=
  Language.append_mem_mul (Language.nil_mem_kstar unitText)
    (Language.mem_iSup.mpr ⟨[], [], rfl, rfl, Language.nil_mem_one⟩)

/-- What is told by one failure of a parse. -/
theorem viable_of_failure {file src label : String} {pos : Nat}
    (h : rules.Failure file src pos label) :
    Viable file (src.toList.take pos) ∧
      (∃ w, Fills label w ∧ Viable file (src.toList.take pos ++ w)) ∧
      (label = endLabel → ∃ f, parse file (String.ofList (src.toList.take pos)) = .ok f) := by
  have htake {u r : List Char} (hsrc : src.toList = u ++ r) (hpos : pos = 0 + u.length) :
      src.toList.take pos = u := by
    rw [hsrc, hpos, Nat.zero_add, List.take_left]
  rcases h with hm | ⟨stop, v, hy, hstop, -⟩
  · rcases misses_file hm with ⟨u, r, w, y, hsrc, hpos, hw, hmem⟩ | ⟨rfl, u, r, hsrc, hpos, hmem⟩
    · rw [htake hsrc hpos]
      refine ⟨viable_of_mem hmem file, ⟨w, hw.1, viable_of_mem (y := y) ?_ file⟩, ?_⟩
      · rwa [List.append_assoc]
      · exact fun hend => absurd hend hw.2.1
    · rw [htake hsrc hpos]
      have hviable : Viable file (u ++ []) :=
        viable_of_mem (y := []) (by rwa [List.append_nil, List.append_nil]) file
      exact ⟨by rwa [List.append_nil] at hviable, ⟨[], .endOfInput, hviable⟩,
        fun _ => exists_parse hmem file⟩
  · obtain ⟨f, -, -, hrest, -⟩ := file_ensures.matched hy
    exact absurd hrest hstop

/-- A text is only rejected by the grammar. -/
theorem rules_rejected {file src : String} {err : ParseError}
    (h : parse file src = .error (.rejected err)) :
    rules.parse file src = .error (.rejected err) := by
  rw [parse_eq] at h
  cases hv : rules.parse file src with
  | error e =>
    rw [hv] at h
    cases h
    rfl
  | ok v =>
    rw [hv] at h
    cases v with
    | node n => cases n <;> cases h
    | _ => cases h

/-- **Parse errors stand behind the front of a schema and suggest what can come next.**  For every text
that is rejected at an offset: the text up to there is the front of some text that is parsed; each
thing that is expected stands for a word that makes it a longer such front; and where the end of the
input is expected, the text up to there is parsed itself. -/
theorem rejected_viable {file src : String} {err : ParseError}
    (h : parse file src = .error (.rejected err)) :
    Viable file (src.toList.take err.span.start.offset) ∧
      ∀ label ∈ err.expected,
        (∃ w, Fills label w ∧ Viable file (src.toList.take err.span.start.offset ++ w)) ∧
        (label = endLabel →
          ∃ f, parse file (String.ofList (src.toList.take err.span.start.offset)) = .ok f) := by
  obtain ⟨w, failures, hw, hfailures, rfl⟩ := Parser.exists_reports (rules_rejected h)
  have hviable {label : String} (hmem : (w.furthest, label) ∈ failures) :=
    viable_of_failure ((hfailures w.furthest label).mp hmem)
  rw [Watch.explain_start file (Parser.furthest_le_length hw hfailures), Watch.explain_expected]
  refine ⟨?_, fun label hlabel => (hviable ((hw.expected label).mp hlabel)).2⟩
  rcases hw.attained with ⟨-, hzero⟩ | ⟨label, hmem⟩
  · rw [hzero, List.take_zero]
    exact viable_of_mem (y := []) nil_mem_closedText file
  · exact (hviable hmem).1

/-- Behind the keyword only a gap is expected, though a longer word stands there. -/
theorem rejected_viable_keyword : ∃ err,
    parse memoryName "enumx" = .error (.rejected err) ∧ err.span.start.offset = 4 ∧
      err.expected = ["\"/*\"", "comment", "whitespace"] ∧ Viable memoryName "enum".toList ∧
      ∀ label ∈ err.expected, ∃ w, Fills label w ∧ Viable memoryName ("enum".toList ++ w) := by
  have herr : ∃ err, parse memoryName "enumx" = .error (.rejected err) ∧
      err.span.start.offset = 4 ∧ err.expected = ["\"/*\"", "comment", "whitespace"] :=
    ⟨_, rfl, rfl, by decide⟩
  obtain ⟨err, herr, hoffset, hexpected⟩ := herr
  obtain ⟨hfront, hnext⟩ := rejected_viable herr
  rw [hoffset] at hfront hnext
  exact ⟨err, herr, hoffset, hexpected, hfront, fun label hlabel => (hnext label hlabel).1⟩

end MessageIdl.Schema
