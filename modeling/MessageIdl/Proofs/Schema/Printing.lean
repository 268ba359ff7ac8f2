import MessageIdl.Proofs.Schema.Parsing
import MessageIdl.Proofs.Schema.WellFormed
import MessageIdl.Schema.Format

/-!
# The canonical text is read back

* `linesText`, `joinLines_toList`: the characters of joined lines.
* `gap_absorb`: blanks between parts that end in gaps belong to those gaps.
* `format_mem_fileText`: the canonical text of a well-formed tree is one of its texts.
* `parse_format_iff`: it is parsed to the tree, and no other tree has a canonical text that is.
-/

namespace MessageIdl.Schema

open scoped Computability

/-! ### Lines -/

/-- The characters of lines, each with its line feed. -/
def linesText (lines : List String) : List Char := lines.flatMap (·.toList ++ ['\n'])

theorem linesText_append (a b : List String) : linesText (a ++ b) = linesText a ++ linesText b :=
  List.flatMap_append

theorem linesText_cons (l : String) (ls : List String) :
    linesText (l :: ls) = (l.toList ++ ['\n']) ++ linesText ls := List.flatMap_cons

/-- Lines without the empty ones at the end. -/
def kept (lines : List String) : List String := (lines.reverse.dropWhile (·.isEmpty)).reverse

/-- Lines are kept if some line behind them is. -/
theorem kept_append {a b : List String} (h : kept b ≠ []) : kept (a ++ b) = a ++ kept b := by
  have hne : (b.reverse.dropWhile (·.isEmpty)).isEmpty = false := by
    rw [List.isEmpty_eq_false_iff]
    exact fun h0 => h (List.reverse_eq_nil_iff.mpr h0)
  rw [kept, List.reverse_append, List.dropWhile_append, hne, if_neg Bool.false_ne_true,
    List.reverse_append, List.reverse_reverse, kept]

/-- The last line counts if it is not empty, whatever empty line follows. -/
theorem kept_line {l : String} (h : l.isEmpty = false) : kept [l, ""] = [l] := by
  show ((["", l] : List String).dropWhile (·.isEmpty)).reverse = [l]
  rw [List.dropWhile_cons_of_pos (by rfl), List.dropWhile_cons_of_neg (by rw [h]; exact
    Bool.false_ne_true)]
  rfl

/-- Joined lines are the kept ones, each with its line feed. -/
theorem joinLines_toList (lines : List String) :
    (joinLines lines).toList = linesText (kept lines) := by
  show (if (kept lines).isEmpty then "" else "\n".intercalate (kept lines) ++ "\n").toList = _
  generalize kept lines = ls
  cases ls with
  | nil => rfl
  | cons l ls =>
    rw [List.isEmpty_cons, if_neg Bool.false_ne_true, String.toList_append,
      String.toList_intercalate]
    induction ls generalizing l with
    | nil => simp [linesText]
    | cons l' ls ih =>
      rw [List.map_cons, List.map_cons, List.intercalate_cons_cons, List.append_assoc,
        ← List.map_cons, ih l']
      simp [linesText]

/-- A block of lines that ends in a line with some characters. -/
def Ended (block : List String) : Prop := ∃ ls l, block = ls ++ [l] ∧ l.isEmpty = false

theorem kept_block {block : List String} (h : Ended block) : kept (block ++ [""]) = block := by
  obtain ⟨ls, l, rfl, hl⟩ := h
  have hline : kept ([l] ++ [""]) = [l] := kept_line hl
  rw [List.append_assoc, kept_append (by rw [hline]; exact List.cons_ne_nil l []), hline]

/-! ### Gaps between parts -/

theorem gap_cons {c : Char} (hc : c ∈ blanks) {g : List Char} (hg : g ∈ gapText) :
    c :: g ∈ gapText := by
  have h : [c] ++ g ∈ unitText * gapText := Language.append_mem_mul (blank_mem_unitText hc) hg
  exact (mul_kstar_le_kstar : unitText * gapText ≤ gapText) h

theorem nil_mem_gapText : [] ∈ gapText := Language.nil_mem_kstar _

theorem lineFeed_mem_gapText : ['\n'] ∈ gapText := gap_cons (by decide) nil_mem_gapText

theorem space_mem_gapText : [' '] ∈ gapText := gap_cons (by decide) nil_mem_gapText

theorem space_mem_gap1Text : [' '] ∈ gap1Text :=
  Language.append_mem_mul (blank_mem_unitText (by decide)) nil_mem_gapText

theorem replicate_mem_gapText (n : Nat) : List.replicate n ' ' ∈ gapText := by
  induction n with
  | zero => exact nil_mem_gapText
  | succ n ih => exact gap_cons (by decide) ih

theorem gap_mul_gap : gapText * gapText = gapText := kstar_mul_kstar unitText

theorem le_mul_gap (L : Language Char) : L ≤ L * gapText := by
  intro x hx
  rw [← List.append_nil x]
  exact Language.append_mem_mul hx nil_mem_gapText

/-- **Gaps are absorbed.**  Between parts that end in gaps there may be more gaps. -/
theorem gap_absorb {A : Type} {textOf : A → Language Char}
    (hgap : ∀ a, textOf a * gapText ≤ textOf a) (as : List A) :
    gapText * (as.map fun a => gapText * textOf a).prod * gapText
      ≤ gapText * (as.map textOf).prod := by
  induction as with
  | nil =>
    rw [List.map_nil, List.map_nil, List.prod_nil, mul_one, gap_mul_gap]
  | cons a as ih =>
    rw [List.map_cons, List.map_cons, List.prod_cons, List.prod_cons]
    calc gapText * (gapText * textOf a * (as.map fun a => gapText * textOf a).prod) * gapText
        = gapText * textOf a * (as.map fun a => gapText * textOf a).prod * gapText := by
          rw [← mul_assoc, ← mul_assoc, gap_mul_gap]
      _ ≤ gapText * (textOf a * gapText) * (as.map fun a => gapText * textOf a).prod * gapText := by
          gcongr
          exact le_mul_gap (textOf a)
      _ = gapText * textOf a * (gapText * (as.map fun a => gapText * textOf a).prod * gapText) := by
          simp only [mul_assoc]
      _ ≤ gapText * textOf a * (gapText * (as.map textOf).prod) := by gcongr
      _ = gapText * (textOf a * gapText * (as.map textOf).prod) := by simp only [mul_assoc]
      _ ≤ gapText * (textOf a * (as.map textOf).prod) := by
          gcongr
          exact hgap a

/-! ### Blocks -/

theorem kept_spaced_ne_nil {A : Type} {linesOf : A → List String} (hend : ∀ a, Ended (linesOf a))
    (a : A) (as : List A) : kept (spaced ((a :: as).map linesOf)) ≠ [] := by
  induction as generalizing a with
  | nil =>
    show kept (linesOf a ++ [""] ++ []) ≠ []
    rw [List.append_nil, kept_block (hend a)]
    obtain ⟨ls, l, hb, -⟩ := hend a
    rw [hb]
    exact List.append_ne_nil_of_right_ne_nil ls (List.cons_ne_nil l [])
  | cons a' as ih =>
    show kept (linesOf a ++ [""] ++ spaced ((a' :: as).map linesOf)) ≠ []
    rw [kept_append (ih a')]
    exact List.append_ne_nil_of_right_ne_nil _ (ih a')

/-- The lines of blocks are texts in a row, the empty lines being gaps. -/
theorem spaced_mem_prod {A : Type} {textOf : A → Language Char} {linesOf : A → List String}
    (hend : ∀ a, Ended (linesOf a)) (hgap : ∀ a, textOf a * gapText ≤ textOf a) (as : List A)
    (hmem : ∀ a ∈ as, linesText (linesOf a) ∈ textOf a) :
    linesText (kept (spaced (as.map linesOf))) ∈ (as.map textOf).prod := by
  induction as with
  | nil => exact Language.nil_mem_one
  | cons a as ih =>
    have ha := hmem a List.mem_cons_self
    cases as with
    | nil =>
      show linesText (kept (linesOf a ++ [""] ++ [])) ∈ textOf a * 1
      rw [List.append_nil, kept_block (hend a), mul_one]
      exact ha
    | cons a' as =>
      have htail := ih fun b hb => hmem b (List.mem_cons_of_mem a hb)
      have hhead : linesText (linesOf a ++ [""]) ∈ textOf a := by
        rw [linesText_append]
        exact hgap a (Language.append_mem_mul ha lineFeed_mem_gapText)
      show linesText (kept (linesOf a ++ [""] ++ spaced ((a' :: as).map linesOf))) ∈ _
      rw [kept_append (kept_spaced_ne_nil hend a' as), linesText_append]
      exact Language.append_mem_mul hhead htail

/-! ### The texts of the parts -/

theorem indent_toList (n : Nat) (line : String) :
    (indent n line).toList = List.replicate n ' ' ++ line.toList := by
  rw [indent, String.toList_append, String.toList_ofList]

theorem toString_mem_digitsText (n : Nat) : (toString n).toList ∈ digitsText := by
  show n.repr.toList ∈ digitsText
  rw [Nat.toList_repr]
  exact ⟨Nat.toDigits_ne_nil, fun c hc => Nat.isDigit_of_mem_toDigits (by omega) (by omega) hc⟩

theorem number_mem_numberedText (n : Nat) :
    (toString n).toList ++ [';', '\n'] ∈ numberedText := by
  have hdigits : (toString n).toList ++ [] ∈ digitsText * gapText :=
    Language.append_mem_mul (toString_mem_digitsText n) nil_mem_gapText
  have hword : (toString n).toList ++ [] ++ [';'] ∈ digitsText * gapText * word ";" :=
    Language.append_mem_mul hdigits (mem_word.mpr rfl)
  have h : (toString n).toList ++ [] ++ [';'] ++ ['\n'] ∈ numberedText :=
    Language.append_mem_mul hword lineFeed_mem_gapText
  simpa only [List.append_nil, List.append_assoc, List.singleton_append] using h

/-- An equals sign and a number, with blanks around the sign. -/
theorem equals_mem {L M : Language Char} {x y : List Char} (hx : x ∈ L) (hM : [' '] ∈ M)
    (hy : y ∈ numberedText) : x ++ ' ' :: '=' :: ' ' :: y ∈ L * M * word "=" * M * numberedText := by
  have hblank : x ++ [' '] ∈ L * M := Language.append_mem_mul hx hM
  have hword : x ++ [' '] ++ ['='] ∈ L * M * word "=" :=
    Language.append_mem_mul hblank (mem_word.mpr rfl)
  have h : x ++ [' '] ++ ['='] ++ [' '] ++ y ∈ L * M * word "=" * M * numberedText :=
    Language.append_mem_mul (Language.append_mem_mul hword hM) hy
  simpa only [List.append_assoc, List.singleton_append, List.cons_append, List.nil_append] using h

theorem value_line_mem {v : EnumValue} (hv : isIdentifier v.name = true) (n : Nat) :
    (v.line n).toList ++ ['\n'] ∈ valueText v := by
  have hname : v.name.toList ∈ nameText v.name := mem_nameText.mpr ⟨hv, rfl⟩
  have h := equals_mem hname space_mem_gap1Text (number_mem_numberedText n)
  simpa [EnumValue.line, valueText] using h

theorem field_line_mem {f : Field} (hf : f.WellFormed) (n : Nat) :
    (f.line n).toList ++ ['\n'] ∈ fieldText f := by
  have hmod : (if f.repeated then "repeated " else "").toList ∈ modifierText f.repeated := by
    cases f.repeated with
    | true => exact Language.append_mem_mul (mem_word.mpr rfl) space_mem_gap1Text
    | false => exact Language.nil_mem_one
  have htype : f.type.toList ∈ typeText f.repeated f.type :=
    mem_typeText.mpr ⟨hf.type, hf.modifier, rfl⟩
  have hname : f.name.toList ∈ nameText f.name := mem_nameText.mpr ⟨hf.name, rfl⟩
  have hhead := Language.append_mem_mul (Language.append_mem_mul
    (Language.append_mem_mul hmod htype) space_mem_gap1Text) hname
  have h := equals_mem hhead space_mem_gapText (number_mem_numberedText n)
  simpa [Field.line, fieldText] using h

theorem fieldText_gap (f : Field) : fieldText f * gapText ≤ fieldText f := by
  simp only [fieldText, numberedText, mul_assoc, gap_mul_gap, le_refl]

theorem valueText_gap (v : EnumValue) : valueText v * gapText ≤ valueText v := by
  simp only [valueText, numberedText, mul_assoc, gap_mul_gap, le_refl]

theorem enumText_gap (e : Enumeration) : enumText e * gapText ≤ enumText e := by
  simp only [enumText, bodyText, mul_assoc, gap_mul_gap, le_refl]

theorem messageText_gap (m : Message) : messageText m * gapText ≤ messageText m := by
  simp only [messageText, bodyText, mul_assoc, gap_mul_gap, le_refl]

/-- What is one of two kinds of parts ends in gaps if both kinds do. -/
theorem either_gap {A B : Type} {textA : A → Language Char} {textB : B → Language Char}
    (hA : ∀ a, textA a * gapText ≤ textA a) (hB : ∀ b, textB b * gapText ≤ textB b) (p : A ⊕ B) :
    p.elim textA textB * gapText ≤ p.elim textA textB := by
  cases p with
  | inl a => exact hA a
  | inr b => exact hB b

/-! ### Rows of lines -/

/-- Numbered lines, moved to the right, are texts in a row with gaps in front of them. -/
theorem numbered_lines_mem {A : Type} {textOf : A → Language Char} (n : Nat) (as : List A) :
    ∀ line : Nat → A → String, (∀ i, ∀ a ∈ as, (line i a).toList ++ ['\n'] ∈ textOf a) →
      linesText (as.mapIdx fun i a => indent n (line i a))
        ∈ (as.map fun a => gapText * textOf a).prod := by
  induction as with
  | nil => intro line _; exact Language.nil_mem_one
  | cons a as ih =>
    intro line h
    have hhead : List.replicate n ' ' ++ ((line 0 a).toList ++ ['\n']) ∈ gapText * textOf a :=
      Language.append_mem_mul (replicate_mem_gapText n) (h 0 a List.mem_cons_self)
    have htail := ih (fun i => line (i + 1)) fun i b hb => h (i + 1) b (List.mem_cons_of_mem a hb)
    rw [List.mapIdx_cons, linesText_cons, indent_toList, List.append_assoc _ _ ['\n']]
    exact Language.append_mem_mul hhead htail

/-- Blocks of lines are texts in a row. -/
theorem blocks_mem {A : Type} {textOf : A → Language Char} {linesOf : A → List String}
    (as : List A) (h : ∀ a ∈ as, linesText (linesOf a) ∈ textOf a) :
    linesText (as.flatMap linesOf) ∈ (as.map textOf).prod := by
  induction as with
  | nil => exact Language.nil_mem_one
  | cons a as ih =>
    rw [List.flatMap_cons, linesText_append]
    exact Language.append_mem_mul (h a List.mem_cons_self)
      (ih fun b hb => h b (List.mem_cons_of_mem a hb))

/-- A name and a body in braces. -/
theorem body_mem {s : String} (hs : isIdentifier s = true) {L : Language Char} {x tail : List Char}
    (hx : x ∈ gapText * L) (htail : tail ∈ gapText) :
    s.toList ++ ' ' :: '\x7b' :: (x ++ '\x7d' :: tail) ∈ bodyText s L := by
  obtain ⟨g, hg, y, hy, rfl⟩ := Language.mem_mul.mp hx
  have hopen : s.toList ++ [' '] ++ ['\x7b'] ∈ nameText s * gapText * word "\x7b" :=
    Language.append_mem_mul (Language.append_mem_mul (mem_nameText.mpr ⟨hs, rfl⟩)
      space_mem_gapText) (mem_word.mpr rfl)
  have hbody : s.toList ++ [' '] ++ ['\x7b'] ++ g ++ y
      ∈ nameText s * gapText * word "\x7b" * gapText * L :=
    Language.append_mem_mul (Language.append_mem_mul hopen hg) hy
  have h : s.toList ++ [' '] ++ ['\x7b'] ++ g ++ y ++ ['\x7d'] ++ tail ∈ bodyText s L :=
    Language.append_mem_mul (Language.append_mem_mul hbody (mem_word.mpr rfl)) htail
  simpa only [List.append_assoc, List.singleton_append, List.cons_append, List.nil_append] using h

/-! ### Declarations -/

/-- The lines of an enumeration, behind its indentation. -/
theorem enum_lines_mem {e : Enumeration} (he : e.WellFormed) (depth : Nat) :
    ∃ x ∈ enumText e, linesText (e.lines depth) = List.replicate depth ' ' ++ x := by
  have hvalues := numbered_lines_mem (depth + 2) e.values (fun i v => v.line i)
    fun i v hv => value_line_mem (he.values v hv) i
  have hbody := gap_absorb valueText_gap e.values (Language.append_mem_mul
    (Language.append_mem_mul lineFeed_mem_gapText hvalues) (replicate_mem_gapText depth))
  obtain ⟨g, hg, y, hy, hgy⟩ := Language.mem_mul.mp hbody
  have hx : g ++ y ∈ gapText * valuesText e.values :=
    Language.append_mem_mul hg ⟨he.nonempty, hy⟩
  rw [hgy] at hx
  have h : "enum".toList ++ [' '] ++ _ ∈ enumText e :=
    Language.append_mem_mul (Language.append_mem_mul (mem_word.mpr rfl) space_mem_gap1Text)
      (body_mem he.name hx lineFeed_mem_gapText)
  refine ⟨_, h, ?_⟩
  simp [Enumeration.lines, opening, indent_toList, linesText]

section Mixed

variable {A B : Type}

theorem left_of_lefts (as : List A) :
    (as.map (Sum.inl : A → A ⊕ B)).filterMap Sum.getLeft? = as := by
  rw [List.filterMap_map]
  exact List.filterMap_some

theorem left_of_rights (bs : List B) :
    (bs.map (Sum.inr : B → A ⊕ B)).filterMap Sum.getLeft? = [] := by
  rw [List.filterMap_map]
  exact List.filterMap_eq_nil_iff.mpr fun b _ => rfl

theorem right_of_lefts (as : List A) :
    (as.map (Sum.inl : A → A ⊕ B)).filterMap Sum.getRight? = [] := by
  rw [List.filterMap_map]
  exact List.filterMap_eq_nil_iff.mpr fun a _ => rfl

theorem right_of_rights (bs : List B) :
    (bs.map (Sum.inr : B → A ⊕ B)).filterMap Sum.getRight? = bs := by
  rw [List.filterMap_map]
  exact List.filterMap_some

/-- All parts of the first kind, and then all of the second. -/
theorem lefts_first (textA : A → Language Char) (textB : B → Language Char) (as : List A)
    (bs : List B) : ((as.map Sum.inl ++ bs.map Sum.inr).map (Sum.elim textA textB)).prod
      ≤ mixedText textA textB as bs := by
  intro t ht
  refine ⟨_, ?_, ?_, ht⟩
  · rw [List.filterMap_append, left_of_lefts, left_of_rights, List.append_nil]
  · rw [List.filterMap_append, right_of_lefts, right_of_rights, List.nil_append]

/-- All parts of the second kind, and then all of the first. -/
theorem rights_first (textA : A → Language Char) (textB : B → Language Char) (as : List A)
    (bs : List B) : ((bs.map Sum.inr ++ as.map Sum.inl).map (Sum.elim textA textB)).prod
      ≤ mixedText textA textB as bs := by
  intro t ht
  refine ⟨_, ?_, ?_, ht⟩
  · rw [List.filterMap_append, left_of_lefts, left_of_rights, List.nil_append]
  · rw [List.filterMap_append, right_of_lefts, right_of_rights, List.append_nil]

end Mixed

/-- The lines between the braces of a message. -/
theorem members_mem {m : Message} (hm : m.WellFormed) :
    '\n' :: (linesText (m.fields.mapIdx fun i f => indent 2 (f.line (i + 1)))
      ++ linesText (m.enums.flatMap (Enumeration.lines 2)))
      ∈ gapText * mixedText fieldText enumText m.fields m.enums := by
  have hfields := numbered_lines_mem 2 m.fields (fun i f => f.line (i + 1))
    fun i f hf => field_line_mem (hm.fields f hf) (i + 1)
  have henums : linesText (m.enums.flatMap (Enumeration.lines 2))
      ∈ (m.enums.map fun e => gapText * enumText e).prod := by
    refine blocks_mem m.enums fun e he => ?_
    obtain ⟨x, hx, hlines⟩ := enum_lines_mem (hm.enums e he) 2
    rw [hlines]
    exact Language.append_mem_mul (replicate_mem_gapText 2) hx
  have hparts : linesText (m.fields.mapIdx fun i f => indent 2 (f.line (i + 1)))
      ++ linesText (m.enums.flatMap (Enumeration.lines 2))
      ∈ ((m.fields.map Sum.inl ++ m.enums.map Sum.inr).map
        fun p => gapText * Sum.elim fieldText enumText p).prod := by
    rw [List.map_append, List.map_map, List.map_map, List.prod_append]
    exact Language.append_mem_mul hfields henums
  have hbody := gap_absorb (either_gap fieldText_gap enumText_gap) _ (Language.append_mem_mul
    (Language.append_mem_mul lineFeed_mem_gapText hparts) nil_mem_gapText)
  rw [List.append_nil] at hbody
  exact mul_le_mul_right (lefts_first fieldText enumText m.fields m.enums) gapText hbody

/-- The lines of a message. -/
theorem message_lines_mem {m : Message} (hm : m.WellFormed) :
    linesText m.lines ∈ messageText m := by
  have hmessage {x : List Char} (hx : x ∈ gapText * mixedText fieldText enumText m.fields m.enums) :
      "message".toList ++ [' '] ++ (m.name.toList ++ ' ' :: '\x7b' :: (x ++ ['\x7d', '\n']))
        ∈ messageText m :=
    Language.append_mem_mul (Language.append_mem_mul (mem_word.mpr rfl) space_mem_gapText)
      (body_mem hm.name hx lineFeed_mem_gapText)
  by_cases hnone : m.fields.isEmpty ∧ m.enums.isEmpty
  · have hx : [] ∈ gapText * mixedText fieldText enumText m.fields m.enums := by
      rw [List.isEmpty_iff.mp hnone.1, List.isEmpty_iff.mp hnone.2]
      exact Language.append_mem_mul nil_mem_gapText
        (show [] ∈ mixedText _ _ [] [] from ⟨[], rfl, rfl, Language.nil_mem_one⟩)
    rw [Message.lines, if_pos hnone]
    simpa [opening, linesText] using hmessage hx
  · rw [Message.lines, if_neg hnone]
    simpa [opening, linesText_append, linesText_cons, linesText] using hmessage (members_mem hm)

/-! ### Files -/

theorem isEmpty_append_of_right {a b : String} (h : b.isEmpty = false) :
    (a ++ b).isEmpty = false := by
  rw [String.isEmpty_eq_false_iff] at h ⊢
  exact fun h0 => h (String.append_eq_empty_iff.mp h0).2

theorem enum_lines_ended (e : Enumeration) : Ended (e.lines 0) := by
  exact ⟨_, _, rfl, by decide⟩

theorem message_lines_ended (m : Message) : Ended m.lines := by
  by_cases hnone : m.fields.isEmpty ∧ m.enums.isEmpty
  · rw [Message.lines, if_pos hnone]
    exact ⟨[], _, rfl, isEmpty_append_of_right (by decide)⟩
  · rw [Message.lines, if_neg hnone]
    exact ⟨_, _, rfl, by decide⟩

/-- **The canonical text of a well-formed tree is one of its texts.** -/
theorem format_mem_fileText {f : SchemaFile} (hf : f.WellFormed) :
    f.format.toList ∈ fileText f := by
  have hend : ∀ p, Ended (Sum.elim Message.lines (Enumeration.lines 0) p) := by
    intro p
    cases p with
    | inl m => exact message_lines_ended m
    | inr e => exact enum_lines_ended e
  have hmem : ∀ p ∈ f.enums.map Sum.inr ++ f.messages.map Sum.inl,
      linesText (Sum.elim Message.lines (Enumeration.lines 0) p)
        ∈ Sum.elim messageText enumText p := by
    intro p hp
    rcases List.mem_append.mp hp with hp | hp
    · obtain ⟨e, he, rfl⟩ := List.mem_map.mp hp
      obtain ⟨x, hx, hlines⟩ := enum_lines_mem (hf.enums e he) 0
      rw [List.replicate_zero, List.nil_append] at hlines
      exact hlines ▸ hx
    · obtain ⟨m, hm, rfl⟩ := List.mem_map.mp hp
      exact message_lines_mem (hf.messages m hm)
  have hdecls := rights_first messageText enumText f.messages f.enums
    (spaced_mem_prod hend (either_gap messageText_gap enumText_gap) _ hmem)
  rw [List.map_append, List.map_map, List.map_map] at hdecls
  rw [SchemaFile.format, joinLines_toList, ← List.append_nil (linesText _),
    ← List.nil_append (linesText _)]
  exact Language.append_mem_mul (Language.append_mem_mul nil_mem_gapText hdecls)
    (.inl Language.nil_mem_one)

/-! ### Spans are not written -/

theorem mapIdx_map {A B C : Type} (g : A → B) (as : List A) :
    ∀ line : Nat → B → C, (as.map g).mapIdx line = as.mapIdx fun i a => line i (g a) := by
  induction as with
  | nil => intro line; rfl
  | cons a as ih => intro line; rw [List.map_cons, List.mapIdx_cons, List.mapIdx_cons, ih]

theorem enum_lines_bare (e : Enumeration) (depth : Nat) : e.bare.lines depth = e.lines depth := by
  rw [Enumeration.lines, Enumeration.lines]
  show _ :: (e.values.map EnumValue.bare).mapIdx _ ++ _ = _
  rw [mapIdx_map]
  rfl

theorem message_lines_bare (m : Message) : m.bare.lines = m.lines := by
  have henums : m.bare.enums.flatMap (Enumeration.lines 2)
      = m.enums.flatMap (Enumeration.lines 2) := by
    show (m.enums.map Enumeration.bare).flatMap _ = _
    rw [List.flatMap_map]
    exact congrArg (m.enums.flatMap ·) (funext fun e => enum_lines_bare e 2)
  rw [Message.lines, Message.lines]
  show (if (m.fields.map Field.bare).isEmpty ∧ (m.enums.map Enumeration.bare).isEmpty then _
    else _ :: (m.fields.map Field.bare).mapIdx _ ++ _ ++ _) = _
  rw [List.isEmpty_map, List.isEmpty_map, mapIdx_map, henums]
  rfl

theorem format_bare (f : SchemaFile) : f.bare.format = f.format := by
  rw [SchemaFile.format, SchemaFile.format]
  show joinLines (spaced ((f.enums.map Enumeration.bare).map (Enumeration.lines 0)
    ++ (f.messages.map Message.bare).map Message.lines)) = _
  have henums : Enumeration.lines 0 ∘ Enumeration.bare = Enumeration.lines 0 :=
    funext fun e => enum_lines_bare e 0
  have hmessages : Message.lines ∘ Message.bare = Message.lines := funext message_lines_bare
  rw [List.map_map, List.map_map, henums, hmessages]

theorem SchemaFile.Same.format_eq {f g : SchemaFile} (h : f.Same g) : f.format = g.format := by
  rw [← format_bare f, ← format_bare g, show f.bare = g.bare from h]

/-- **Round trip of printer and parser, with its exact domain.**  The canonical text of a tree is parsed
to the tree, up to spans, if and only if the tree is well formed and has no path.  Every tree that is
parsed from any text is well formed, so its canonical text is parsed to the same tree, which has the
same canonical text. -/
theorem parse_format_iff :
    (∀ file pf, (∃ f, parse file pf.format = .ok f ∧ f.Same pf) ↔ pf.WellFormed ∧ pf.path = none) ∧
    (∀ file src f, parse file src = .ok f → f.WellFormed) ∧
    (∀ file file' src f, parse file src = .ok f →
      ∃ g, parse file' f.format = .ok g ∧ g.Same f ∧ g.format = f.format) := by
  have hwell : ∀ file src f, parse file src = .ok f → f.WellFormed := by
    intro file src f h
    exact wellFormed_of_fileText (mem_fileText_of_parse h).2
  refine ⟨fun file pf => ⟨?_, ?_⟩, hwell, fun file file' src f h => ?_⟩
  · rintro ⟨f, hf, hsame⟩
    obtain ⟨hpath, htext⟩ := mem_fileText_of_parse hf
    rw [hsame.fileText_eq] at htext
    exact ⟨wellFormed_of_fileText htext, hsame.path_eq ▸ hpath⟩
  · rintro ⟨hpf, hpath⟩
    exact parse_of_mem_fileText file (format_mem_fileText hpf) hpath
  · obtain ⟨hpath, htext⟩ := mem_fileText_of_parse h
    obtain ⟨g, hg, hsame⟩ :=
      parse_of_mem_fileText file' (format_mem_fileText (wellFormed_of_fileText htext)) hpath
    exact ⟨g, hg, hsame, hsame.format_eq⟩

end MessageIdl.Schema
