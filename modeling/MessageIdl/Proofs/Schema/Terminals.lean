import MessageIdl.Proofs.Schema.Gaps
import Mathlib.Data.List.TakeWhile

/-!
# Names, numbers and types

* `Ends`: a text at whose front a run of characters has ended.
* `name_ensures`, `takes_name`, `number_ensures`, `takes_number`: the longest name, the longest number.
* `fieldType_ensures`, `takes_fieldType`: a keyword wherever one stands at the front, also in front of
  a longer name, and a name elsewhere.
-/

namespace MessageIdl.Schema

open MessageIdl.Peg MessageIdl.Source
open scoped Computability

/-- No character of the class stands at the front of a text. -/
def Ends (inClass : Char → Bool) (text : List Char) : Prop := ∀ c ∈ text.head?, inClass c = false

theorem ends_cons {p : Char → Bool} {c : Char} {t : List Char} (h : p c = false) :
    Ends p (c :: t) := by
  intro c' hc'
  cases hc'
  exact h

/-! ### Runs of characters -/

theorem take_leading (p : Char → Bool) (t : List Char) :
    t.take (Pattern.leading p t) = t.takeWhile p :=
  (List.prefix_iff_eq_take.mp (List.takeWhile_prefix p)).symm

/-- A run of a class is taken up to where it ends. -/
theorem leading_append {p : Char → Bool} {s t : List Char} (hs : ∀ c ∈ s, p c = true)
    (ht : Ends p t) : Pattern.leading p (s ++ t) = s.length := by
  have htail : t.takeWhile p = [] := by
    cases t with
    | nil => rfl
    | cons c t => rw [List.takeWhile_cons, if_neg (by rw [ht c rfl]; exact Bool.false_ne_true)]
  rw [Pattern.leading, List.takeWhile_append_of_pos hs, htail, List.append_nil]

/-- A word of the class that stands in front of a run and of what follows it stands in front of the
run. -/
theorem prefix_of_prefix_append {p : Char → Bool} {w s t : List Char} (hw : ∀ c ∈ w, p c = true)
    (ht : Ends p t) (h : w <+: s ++ t) : w <+: s := by
  rcases List.prefix_or_prefix_of_prefix h (List.prefix_append s t) with hws | ⟨u, rfl⟩
  · exact hws
  · cases u with
    | nil => rw [List.append_nil]
    | cons c u =>
      have hu : c :: u <+: t := (List.prefix_append_right_inj s).mp h
      obtain ⟨r, rfl⟩ := hu
      have hc := hw c (List.mem_append_right s List.mem_cons_self)
      rw [ht c rfl] at hc
      cases hc

/-! ### Where gaps begin and end -/

/-- A gap begins with a blank or a slash. -/
theorem gap_head {g : List Char} (hg : g ∈ gapText) : ∀ c ∈ g.head?, c ∈ blanks ∨ c = '/' := by
  obtain ⟨units, rfl, hunits⟩ := Language.mem_kstar.mp hg
  intro c hc
  cases units with
  | nil => cases hc
  | cons u units =>
    rcases mem_unitText (hunits u List.mem_cons_self) with ⟨d, hd, rfl⟩ | ⟨s, -, rfl⟩ | ⟨s, -, rfl⟩
    · cases hc
      exact .inl hd
    · cases hc
      exact .inr rfl
    · cases hc
      exact .inr rfl

theorem blanks_not_isNamePart : ∀ c ∈ blanks, isNamePart c = false := by
  have hall : blanks.all (!isNamePart ·) = true := by decide
  intro c hc
  rw [← Bool.not_eq_true']
  exact List.all_eq_true.mp hall c hc

theorem isNamePart_of_isDigit {c : Char} (h : c.isDigit = true) : isNamePart c = true := by
  rw [isNamePart, h, Bool.or_true]

theorem isNamePart_of_isNameStart {c : Char} (h : isNameStart c = true) : isNamePart c = true := by
  rw [isNamePart, h, Bool.true_or]

/-- No gap begins with a character of a name. -/
theorem solid_of_isNamePart {c : Char} (h : isNamePart c = true) : c ∉ blanks ∧ c ≠ '/' := by
  refine ⟨fun hb => ?_, fun hs => ?_⟩
  · rw [blanks_not_isNamePart c hb] at h
    cases h
  · subst hs
    cases h

/-- A name ends in front of a gap. -/
theorem ends_gap {g t : List Char} (hg : g ∈ gapText) (ht : Ends isNamePart t) :
    Ends isNamePart (g ++ t) := by
  intro c hc
  cases g with
  | nil => exact ht c hc
  | cons d g =>
    cases hc
    rcases gap_head hg c rfl with hd | rfl
    · exact blanks_not_isNamePart c hd
    · rfl

theorem gap1_ne_nil {g : List Char} (hg : g ∈ gap1Text) : g ≠ [] := by
  obtain ⟨u, hu, g', -, rfl⟩ := Language.mem_mul.mp hg
  exact fun h => unitText_ne_nil hu (List.append_eq_nil_iff.mp h).1

theorem gapText_of_gap1Text {g : List Char} (hg : g ∈ gap1Text) : g ∈ gapText :=
  (mul_kstar_le_kstar : gap1Text ≤ gapText) hg

/-- A name ends in front of a gap that is not empty, whatever follows. -/
theorem ends_gap1 {g : List Char} (hg : g ∈ gap1Text) (t : List Char) :
    Ends isNamePart (g ++ t) := by
  intro c hc
  cases g with
  | nil => exact absurd rfl (gap1_ne_nil hg)
  | cons d g =>
    cases hc
    rcases gap_head (gapText_of_gap1Text hg) c rfl with hd | rfl
    · exact blanks_not_isNamePart c hd
    · rfl

/-! ### Names -/

/-- A name is a character that begins names and some that continue them. -/
theorem isIdentifier_iff {s : String} : isIdentifier s = true ↔
    ∃ c t, s.toList = c :: t ∧ isNameStart c = true ∧ ∀ d ∈ t, isNamePart d = true := by
  unfold isIdentifier
  cases hs : s.toList with
  | nil => simp
  | cons c t => simp

theorem isIdentifier_ne_nil {s : String} (h : isIdentifier s = true) : s.toList ≠ [] := by
  obtain ⟨c, t, hs, -, -⟩ := isIdentifier_iff.mp h
  rw [hs]
  exact List.cons_ne_nil c t

theorem isNamePart_of_mem {s : String} (h : isIdentifier s = true) :
    ∀ c ∈ s.toList, isNamePart c = true := by
  obtain ⟨c, t, hs, hc, ht⟩ := isIdentifier_iff.mp h
  rw [hs]
  intro d hd
  rcases List.mem_cons.mp hd with rfl | hd
  · exact isNamePart_of_isNameStart hc
  · exact ht d hd

section

variable {find : String → Option (Expr Node)} {lines : LineIndex} {text rest : List Char}

theorem name_ensures : Ensures find lines name
    (fun c stop v => ∃ s, v = .text s ∧ isIdentifier s = true ∧
      c.rest = s.toList ++ stop.rest) := by
  refine (Ensures.pattern namePattern).imp fun c stop v _ h => ?_
  obtain ⟨n, hs, rfl, rfl⟩ := h
  change scanName c.rest = some n at hs
  refine ⟨_, rfl, isIdentifier_iff.mpr ?_, ?_⟩
  · rw [String.toList_ofList]
    cases hc : c.rest with
    | nil => rw [hc] at hs; cases hs
    | cons d t =>
      rw [hc, scanName] at hs
      split at hs
      · rename_i hd
        cases hs
        refine ⟨d, _, rfl, hd, fun d' hd' => ?_⟩
        rw [take_leading] at hd'
        exact List.mem_takeWhile_imp hd'
      · cases hs
  · rw [String.toList_ofList, Cursor.advance_rest, List.take_append_drop]

theorem takes_name {s : String} (hs : isIdentifier s = true) (hrest : Ends isNamePart rest) :
    Takes find lines name (s.toList ++ rest) rest (· = .text s) := by
  have hscan : namePattern.scan (s.toList ++ rest) = some s.toList.length := by
    obtain ⟨c, t, hct, hc, ht⟩ := isIdentifier_iff.mp hs
    rw [hct]
    show scanName (c :: (t ++ rest)) = _
    rw [scanName, if_pos hc, leading_append ht hrest]
    rfl
  refine (Takes.pattern hscan).imp fun v hv => ?_
  rw [hv, String.ofList_toList]

theorem refuses_name (h : Ends isNameStart text) : Refuses find lines name text := by
  refine .pattern ?_
  show scanName text = none
  cases text with
  | nil => rfl
  | cons c t => rw [scanName, if_neg (by rw [h c rfl]; exact Bool.false_ne_true)]

/-! ### Numbers -/

theorem digits_ensures : Ensures find lines number
    (fun c stop _ => ∃ d ∈ digitsText, c.rest = d ++ stop.rest) := by
  refine (Ensures.pattern numberPattern).imp fun c stop v _ h => ?_
  obtain ⟨n, hs, rfl, -⟩ := h
  change (if Pattern.leading Char.isDigit c.rest < 1 then none
    else some (Pattern.leading Char.isDigit c.rest)) = some n at hs
  split at hs
  · cases hs
  · rename_i hlen
    cases hs
    rw [Cursor.advance_rest]
    have hsplit := List.take_append_drop (Pattern.leading Char.isDigit c.rest) c.rest
    refine ⟨_, ⟨?_, ?_⟩, hsplit.symm⟩
    · rw [take_leading]
      exact List.ne_nil_of_length_pos (by unfold Pattern.leading at hlen; omega)
    · intro d hd
      rw [take_leading] at hd
      exact List.mem_takeWhile_imp hd

theorem number_ensures : Ensures find lines number
    (fun c stop _ => Reads digitsText c.rest stop.rest) := by
  refine digits_ensures.imp fun c stop v _ h => ?_
  obtain ⟨d, hd, hc⟩ := h
  rw [hc]
  exact Reads.of_mem hd _

theorem takes_number {d : List Char} (hd : d ∈ digitsText) (hrest : Ends isNamePart rest) :
    Takes find lines number (d ++ rest) rest (fun _ => True) := by
  obtain ⟨hne, hall⟩ := mem_digitsText.mp hd
  have hends : Ends Char.isDigit rest := by
    intro c hc
    have hpart := hrest c hc
    rw [isNamePart, Bool.or_eq_false_iff] at hpart
    exact hpart.2
  have hscan : numberPattern.scan (d ++ rest) = some d.length := by
    have hlead := leading_append hall hends
    have hpos := List.length_pos_iff.mpr hne
    show (if Pattern.leading Char.isDigit (d ++ rest) < 1 then none
      else some (Pattern.leading Char.isDigit (d ++ rest))) = _
    rw [hlead, if_neg (by omega)]
  exact (Takes.pattern hscan).imp fun _ _ => trivial

end

/-! ### Types -/

/-- No keyword stands in front of another one. -/
theorem keyword_prefix_eq : ∀ k ∈ Scalar.all, ∀ k' ∈ Scalar.all,
    k.keyword.toList <+: k'.keyword.toList → k = k' := by decide

/-- A keyword has the form of a name. -/
theorem keyword_isIdentifier : ∀ k ∈ Scalar.all, isIdentifier k.keyword = true := by decide

/-- Two keywords in front of one text are the same. -/
theorem keyword_unique {k k' : Scalar} (hk : k ∈ Scalar.all) (hk' : k' ∈ Scalar.all)
    {t : List Char} (h : k.keyword.toList <+: t) (h' : k'.keyword.toList <+: t) : k = k' := by
  rcases List.prefix_or_prefix_of_prefix h h' with hp | hp
  · exact keyword_prefix_eq k hk k' hk' hp
  · exact (keyword_prefix_eq k' hk' k hk hp).symm

theorem IsTypeName.isIdentifier {s : String} (h : IsTypeName s) : isIdentifier s = true := by
  rcases h with ⟨k, hk, rfl⟩ | ⟨hs, -⟩
  · exact keyword_isIdentifier k hk
  · exact hs

section Types

variable {find : String → Option (Expr Node)} {lines : LineIndex} {text rest : List Char}

/-- The alternatives of a type: some keywords in turn, and a name. -/
def typeAlternatives (ks : List Scalar) : List (Expr Node) :=
  ks.map (fun k => boundBody passOn [.literal k.keyword]) ++ [boundBody passOn [name]]

theorem find_fieldTypeRule :
    rules.find "FieldType" = some (.choice (typeAlternatives Scalar.all)) := rfl

/-- A name is only read where no keyword stands at the front. -/
theorem typeAlternatives_ensures (ks : List Scalar) :
    Ensures find lines (.choice (typeAlternatives ks))
      (fun c stop v => ∃ s, v = .text s ∧ c.rest = s.toList ++ stop.rest ∧
        ((∃ k ∈ ks, s = k.keyword) ∨
          isIdentifier s = true ∧ ∀ k ∈ ks, ¬ k.keyword.toList <+: c.rest)) := by
  induction ks with
  | nil =>
    refine Ensures.choice_cons ((ensures_passOn name_ensures).imp fun c stop v _ h => ?_) .choice_nil
    obtain ⟨s, rfl, hs, hc⟩ := h
    exact ⟨s, rfl, hc, .inr ⟨hs, fun k hk => absurd hk List.not_mem_nil⟩⟩
  | cons k ks ih =>
    refine Ensures.choice_cons_of_failed ((ensures_passOn (.literal k.keyword)).imp
      fun c stop v _ h => ?_) (ih.imp fun c stop v _ h hfail => ?_)
    · exact ⟨k.keyword, h.2, h.1, .inl ⟨k, List.mem_cons_self, rfl⟩⟩
    · obtain ⟨s, rfl, hc, hs⟩ := h
      refine ⟨s, rfl, hc, ?_⟩
      rcases hs with ⟨k', hk', rfl⟩ | ⟨hs, hnone⟩
      · exact .inl ⟨k', List.mem_cons_of_mem k hk', rfl⟩
      · refine .inr ⟨hs, fun k' hk' => ?_⟩
        rcases List.mem_cons.mp hk' with rfl | hk'
        · rintro ⟨r, hr⟩
          exact (takes_passOn (Takes.literal k'.keyword r)).not_failed hr.symm hfail
        · exact hnone k' hk'

theorem fieldType_ensures : Ensures rules.find lines (.ref "FieldType")
    (fun c stop v => ∃ s, v = .text s ∧ IsTypeName s ∧ c.rest = s.toList ++ stop.rest) := by
  refine .ref find_fieldTypeRule ((typeAlternatives_ensures Scalar.all).imp fun c stop v _ h => ?_)
  obtain ⟨s, rfl, hc, hs⟩ := h
  refine ⟨s, rfl, hs.imp_right fun hname => ⟨hname.1, fun k hk hp => ?_⟩, hc⟩
  exact hname.2 k hk (hc ▸ hp.trans (List.prefix_append s.toList stop.rest))

/-- A keyword at the front is taken by its own alternative. -/
theorem takes_keyword {k : Scalar} (hk : k ∈ Scalar.all) (rest : List Char) (ks : List Scalar)
    (hks : ∀ k' ∈ ks, k' ∈ Scalar.all) (hmem : k ∈ ks) :
    Takes find lines (.choice (typeAlternatives ks)) (k.keyword.toList ++ rest) rest
      (· = .text k.keyword) := by
  induction ks with
  | nil => exact absurd hmem List.not_mem_nil
  | cons k' ks ih =>
    by_cases heq : k' = k
    · subst heq
      exact Takes.choice_head (takes_passOn (Takes.literal k'.keyword rest))
    · have hne : k ∈ ks := (List.mem_cons.mp hmem).resolve_left fun h => heq h.symm
      refine Takes.choice_tail (refuses_passOn (Refuses.literal fun hp => heq ?_))
        (ih (fun k'' hk'' => hks k'' (List.mem_cons_of_mem k' hk'')) hne)
      exact keyword_unique (hks k' List.mem_cons_self) hk hp (List.prefix_append _ _)

/-- Where no keyword stands at the front, the last alternative decides. -/
theorem takes_typeName {P : Value Node → Prop} (ks : List Scalar)
    (hks : ∀ k ∈ ks, ¬ k.keyword.toList <+: text) (h : Takes find lines name text rest P) :
    Takes find lines (.choice (typeAlternatives ks)) text rest P := by
  induction ks with
  | nil => exact Takes.choice_head (takes_passOn h)
  | cons k ks ih =>
    exact Takes.choice_tail (refuses_passOn (Refuses.literal (hks k List.mem_cons_self)))
      (ih fun k' hk' => hks k' (List.mem_cons_of_mem k hk'))

theorem takes_fieldType {s : String} (hs : IsTypeName s) (hrest : Ends isNamePart rest) :
    Takes rules.find lines (.ref "FieldType") (s.toList ++ rest) rest (· = .text s) := by
  refine .ref find_fieldTypeRule ?_
  rcases hs with ⟨k, hk, rfl⟩ | ⟨hs, hnone⟩
  · exact takes_keyword hk rest Scalar.all (fun _ h => h) hk
  · refine takes_typeName Scalar.all (fun k hk hp => hnone k hk ?_) (takes_name hs hrest)
    exact prefix_of_prefix_append (isNamePart_of_mem (keyword_isIdentifier k hk)) hrest hp

/-- A word with the form of a name does not stand where no name begins. -/
theorem not_prefix_of_ends {w : String} (hw : isIdentifier w = true) (ht : Ends isNameStart text) :
    ¬ w.toList <+: text := by
  obtain ⟨c, t, hct, hc, -⟩ := isIdentifier_iff.mp hw
  rw [hct]
  rintro ⟨r, rfl⟩
  rw [ht c rfl] at hc
  cases hc

theorem refuses_fieldType (ht : Ends isNameStart text) :
    Refuses rules.find lines (.ref "FieldType") text := by
  refine .ref find_fieldTypeRule (.choice fun e he => ?_)
  rcases List.mem_append.mp he with he | he
  · obtain ⟨k, hk, rfl⟩ := List.mem_map.mp he
    exact refuses_passOn (.literal (not_prefix_of_ends (keyword_isIdentifier k hk) ht))
  · cases List.mem_singleton.mp he
    exact refuses_passOn (refuses_name ht)

end Types

end MessageIdl.Schema
