import MessageIdl.Proofs.Schema.Declarations

/-!
# Relations that carry texts of schemas over

A relation between texts may change blanks and comments and nothing else.  Then a text of a tree is
related to texts of this tree only, by the structure of the language.

* `Carries`: what a relation has to respect.
* `Carried`: the languages whose texts it carries over, with a lemma for each way to make languages.
* `Carries.mem_fileText`: texts of files are carried over.
-/

namespace MessageIdl.Schema

open scoped Computability

/-- A relation between texts that changes blanks and comments only.  It keeps what no gap begins with
(`plain`), and a gap in front of something else corresponds to a gap (`gap`). -/
structure Carries (R : List Char → List Char → Prop) : Prop where
  nil : ∀ {t u}, R t u → (t = [] ↔ u = [])
  solid : ∀ {t u}, R t u → (Solid t ↔ Solid u)
  plain : ∀ {w t u}, (∀ c ∈ w, c ∉ blanks ∧ c ≠ '/') → R (w ++ t) u → ∃ u', u = w ++ u' ∧ R t u'
  gap : ∀ {t u r}, R t u → Reads gapText t r → Solid r → ∃ r', Reads gapText u r' ∧ R r r'

/-- What is read of a language in front of a solid text corresponds to a text of this language. -/
def Carried (R : List Char → List Char → Prop) (L : Language Char) : Prop :=
  ∀ t u r, R t u → Reads L t r → Solid r → ∃ r', Reads L u r' ∧ R r r'

/-- The same behind the end of a gap. -/
def CarriedSolid (R : List Char → List Char → Prop) (L : Language Char) : Prop :=
  ∀ t u r, R t u → Solid t → Reads L t r → Solid r → ∃ r', Reads L u r' ∧ R r r'

/-- All characters begin like no gap. -/
def PlainText (L : Language Char) : Prop := ∀ x ∈ L, ∀ c ∈ x, c ∉ blanks ∧ c ≠ '/'

theorem plainText_word {w : String} (hw : ∀ c ∈ w.toList, c ∉ blanks ∧ c ≠ '/') :
    PlainText (word w) := by
  rintro _ rfl
  exact hw

/-- A mark of one character. -/
theorem plainText_mark {w : String} {c : Char} (hw : w.toList = [c]) (hc : c ∉ blanks ∧ c ≠ '/') :
    PlainText (word w) := by
  refine plainText_word ?_
  rw [hw]
  exact List.forall_mem_singleton.mpr hc

theorem plainText_identifier {s : String} (hs : isIdentifier s = true) :
    ∀ c ∈ s.toList, c ∉ blanks ∧ c ≠ '/' :=
  fun c hc => solid_of_isNamePart (isNamePart_of_mem hs c hc)

theorem plainText_nameText (s : String) : PlainText (nameText s) := by
  rintro _ ⟨hs, rfl⟩
  exact plainText_identifier hs

theorem plainText_typeText (b : Bool) (s : String) : PlainText (typeText b s) := by
  rintro _ ⟨hs, -, rfl⟩
  exact plainText_identifier hs.isIdentifier

theorem plainText_digitsText : PlainText digitsText := by
  intro d hd c hc
  exact solid_of_isNamePart (isNamePart_of_isDigit (hd.2 c hc))

/-- Plain texts begin like no gap. -/
theorem PlainText.beginsSolid {L : Language Char} (h : PlainText L) (hnil : [] ∉ L) :
    BeginsSolid L := by
  intro x hx
  cases x with
  | nil => exact absurd hx hnil
  | cons c x => exact ⟨List.cons_ne_nil c x, fun t => solid_cons (h _ hx c List.mem_cons_self)⟩

theorem PlainText.beginsSolid_word {w : String} (h : PlainText (word w)) (hne : w.toList ≠ []) :
    BeginsSolid (word w) := h.beginsSolid fun hnil => hne hnil.symm

theorem BeginsSolid.begins {L : Language Char} (h : BeginsSolid L) :
    ∀ x ∈ L, x ≠ [] → ∀ t, Solid (x ++ t) := fun x hx _ => (h x hx).2

/-- A gap that is not empty has a unit. -/
theorem gap1_of_gap {g : List Char} (hg : g ∈ gapText) (hne : g ≠ []) : g ∈ gap1Text := by
  obtain ⟨units, rfl, hunits⟩ := Language.mem_kstar.mp hg
  cases units with
  | nil => exact absurd rfl hne
  | cons u units =>
    obtain ⟨hu, hrest⟩ := List.forall_mem_cons.mp hunits
    exact Language.append_mem_mul hu (Language.mem_kstar.mpr ⟨units, rfl, hrest⟩)

theorem gap1_not_solid {g : List Char} (hg : g ∈ gap1Text) (t : List Char) : ¬ Solid (g ++ t) := by
  intro h
  cases g with
  | nil => exact gap1_ne_nil hg rfl
  | cons c g =>
    obtain ⟨hblank, hslash⟩ := h c rfl
    exact (gap_head (gapText_of_gap1Text hg) c rfl).elim hblank hslash

/-! ### Products -/

section Products

variable {R : List Char → List Char → Prop} {L M : Language Char}

theorem Carried.carriedSolid (h : Carried R L) : CarriedSolid R L :=
  fun t u r htu _ hread hr => h t u r htu hread hr

/-- Plain texts in front. -/
theorem Carries.plain_mul (hR : Carries R) (hL : PlainText L) (hM : Carried R M) :
    Carried R (L * M) := by
  intro t u r htu hread hr
  obtain ⟨x, hx, mid, rfl, hmid⟩ := hread.uncons
  obtain ⟨u', rfl, hmu⟩ := hR.plain (hL x hx) htu
  obtain ⟨r', hu', hrr⟩ := hM mid u' r hmu hmid hr
  exact ⟨r', (Reads.of_mem hx u').mul hu', hrr⟩

/-- A language in front of another one that begins like no gap. -/
theorem Carried.mul (hL : Carried R L) (hbegin : ∀ y ∈ M, y ≠ [] → ∀ t, Solid (y ++ t))
    (hM : CarriedSolid R M) : Carried R (L * M) := by
  intro t u r htu hread hr
  obtain ⟨mid, hread, hread', hmid⟩ := hread.split hr hbegin
  obtain ⟨u', hu, hmid'⟩ := hL t u mid htu hread hmid
  obtain ⟨r', hu', hrr⟩ := hM mid u' r hmid' hmid hread' hr
  exact ⟨r', hu.mul hu', hrr⟩

theorem CarriedSolid.mul (hL : CarriedSolid R L) (hbegin : ∀ y ∈ M, y ≠ [] → ∀ t, Solid (y ++ t))
    (hM : CarriedSolid R M) : CarriedSolid R (L * M) := by
  intro t u r htu ht hread hr
  obtain ⟨mid, hread, hread', hmid⟩ := hread.split hr hbegin
  obtain ⟨u', hu, hmid'⟩ := hL t u mid htu ht hread hmid
  obtain ⟨r', hu', hrr⟩ := hM mid u' r hmid' hmid hread' hr
  exact ⟨r', hu.mul hu', hrr⟩

theorem Carries.carried_gap (hR : Carries R) : Carried R gapText :=
  fun _ _ _ htu hread hr => hR.gap htu hread hr

/-- A gap that is not empty, in front of something. -/
theorem Carries.gap1_mul (hR : Carries R) (hbegin : BeginsSolid M) (hM : CarriedSolid R M) :
    Carried R (gap1Text * M) := by
  intro t u r htu hread hr
  obtain ⟨g, hg, mid, rfl, hread'⟩ := hread.uncons
  obtain ⟨y, hy, tail, hmid, hl⟩ := hread'
  have hsolid : Solid mid := hmid ▸ (hbegin y hy).2 tail
  have hne : mid ≠ [] := fun h => (hbegin y hy).1 (List.append_eq_nil_iff.mp (hmid.symm.trans h)).1
  obtain ⟨u', ⟨g', hg', tail', rfl, hl'⟩, hmid'⟩ :=
    hR.gap htu (Reads.of_mem (gapText_of_gap1Text hg) mid) hsolid
  have hne' : u' ≠ [] := fun h => hne ((hR.nil hmid').mpr h)
  have htail : tail' = u' := hl'.resolve_right fun h => hne' h.2
  subst htail
  have hgap1 : g' ∈ gap1Text := by
    refine gap1_of_gap hg' fun hnil => ?_
    subst hnil
    exact gap1_not_solid hg mid ((hR.solid htu).mpr ((hR.solid hmid').mp hsolid))
  obtain ⟨r', hu', hrr⟩ := hM mid tail' r hmid' hsolid ⟨y, hy, tail, hmid, hl⟩ hr
  exact ⟨r', (Reads.of_mem hgap1 tail').mul hu', hrr⟩

/-! ### Rows -/

theorem CarriedSolid.one : CarriedSolid R 1 := by
  rintro t u r htu ht ⟨x, hx, tail, rfl, hl⟩ hr
  cases (show x = [] from hx)
  cases (hl.eq_of_solid ht : tail = r)
  exact ⟨u, .one u, htu⟩

theorem CarriedSolid.prod {A : Type} {textOf : A → Language Char}
    (hbegin : ∀ a, BeginsSolid (textOf a)) (h : ∀ a, Carried R (textOf a)) (as : List A) :
    CarriedSolid R (as.map textOf).prod := by
  induction as with
  | nil => exact .one
  | cons a as ih =>
    rw [List.map_cons, List.prod_cons]
    exact ((h a).mul (BeginsSolid.prod hbegin as) ih).carriedSolid

theorem CarriedSolid.mixed {A B : Type} {textA : A → Language Char}
    {textB : B → Language Char} (hbeginA : ∀ a, BeginsSolid (textA a))
    (hbeginB : ∀ b, BeginsSolid (textB b)) (hA : ∀ a, Carried R (textA a))
    (hB : ∀ b, Carried R (textB b)) (as : List A) (bs : List B) :
    CarriedSolid R (mixedText textA textB as bs) := by
  rintro t u r htu ht ⟨x, ⟨parts, has, hbs, hx⟩, hread⟩ hr
  have hparts : ∀ p, Carried R (Sum.elim textA textB p) := by
    intro p
    cases p with
    | inl a => exact hA a
    | inr b => exact hB b
  obtain ⟨r', hu, hrr⟩ := CarriedSolid.prod (beginsSolid_either hbeginA hbeginB) hparts parts t u r htu ht
    ⟨x, hx, hread⟩ hr
  exact ⟨r', hu.mono fun y hy => ⟨parts, has, hbs, hy⟩, hrr⟩

end Products

/-! ### The parts of a tree -/

theorem beginsSolid_bodyText (s : String) (L : Language Char) : BeginsSolid (bodyText s L) :=
  ((((((beginsSolid_nameText s).mul _).mul _).mul _).mul _).mul _).mul _

theorem beginsSolid_numberedText : BeginsSolid numberedText := by
  have hdigits : BeginsSolid digitsText := plainText_digitsText.beginsSolid fun h => h.1 rfl
  exact ((hdigits.mul _).mul _).mul _

section Parts

variable {R : List Char → List Char → Prop} (hR : Carries R)
include hR

/-- A mark in front of a gap and what follows it. -/
theorem Carries.mark_gap_mul {w : String} (hw : PlainText (word w)) {M : Language Char}
    (hbegin : ∀ y ∈ M, y ≠ [] → ∀ t, Solid (y ++ t)) (hM : CarriedSolid R M) :
    Carried R (word w * (gapText * M)) :=
  hR.plain_mul hw (hR.carried_gap.mul hbegin hM)

theorem Carries.numbered : Carried R numberedText := by
  have hmark : PlainText (word ";") := plainText_mark rfl (by decide)
  have hbegin : BeginsSolid (word ";" * gapText) := (hmark.beginsSolid_word (by decide)).mul _
  simp only [numberedText, mul_assoc]
  exact hR.plain_mul plainText_digitsText (hR.carried_gap.mul hbegin.begins
    (hR.plain_mul hmark hR.carried_gap).carriedSolid)

theorem Carries.field (f : Field) : Carried R (fieldText f) := by
  have hmark : PlainText (word "=") := plainText_mark rfl (by decide)
  have hequals : BeginsSolid (word "=" * (gapText * numberedText)) :=
    (hmark.beginsSolid_word (by decide)).mul _
  have hvalue : Carried R (word "=" * (gapText * numberedText)) :=
    hR.mark_gap_mul hmark beginsSolid_numberedText.begins hR.numbered.carriedSolid
  have hnamed : Carried R (nameText f.name * (gapText * (word "=" * (gapText * numberedText)))) :=
    hR.plain_mul (plainText_nameText f.name) (hR.carried_gap.mul hequals.begins hvalue.carriedSolid)
  have htyped (b : Bool) : Carried R (typeText b f.type
      * (gap1Text * (nameText f.name * (gapText * (word "=" * (gapText * numberedText)))))) :=
    hR.plain_mul (plainText_typeText b f.type)
      (hR.gap1_mul ((beginsSolid_nameText f.name).mul _) hnamed.carriedSolid)
  simp only [fieldText, mul_assoc]
  cases f.repeated with
  | false =>
    rw [show modifierText false = 1 from rfl, one_mul]
    exact htyped false
  | true =>
    rw [show modifierText true = word "repeated" * gap1Text from rfl, mul_assoc]
    exact hR.plain_mul (plainText_word (plainText_identifier repeated_isIdentifier))
      (hR.gap1_mul ((beginsSolid_typeText true f.type).mul _) (htyped true).carriedSolid)

theorem Carries.value (v : EnumValue) : Carried R (valueText v) := by
  have hmark : PlainText (word "=") := plainText_mark rfl (by decide)
  have hvalue : Carried R (word "=" * (gap1Text * numberedText)) :=
    hR.plain_mul hmark (hR.gap1_mul beginsSolid_numberedText hR.numbered.carriedSolid)
  simp only [valueText, mul_assoc]
  exact hR.plain_mul (plainText_nameText v.name)
    (hR.gap1_mul ((hmark.beginsSolid_word (by decide)).mul _) hvalue.carriedSolid)

theorem Carries.body (s : String) {L : Language Char}
    (hbegin : ∀ y ∈ L, y ≠ [] → ∀ t, Solid (y ++ t)) (hL : CarriedSolid R L) :
    Carried R (bodyText s L) := by
  have hclose : PlainText (word "\x7d") := plainText_mark rfl (by decide)
  have hopen : PlainText (word "\x7b") := plainText_mark rfl (by decide)
  have hend : CarriedSolid R (L * (word "\x7d" * gapText)) :=
    hL.mul ((hclose.beginsSolid_word (by decide)).mul _).begins
      (hR.plain_mul hclose hR.carried_gap).carriedSolid
  have hbegin' : ∀ y ∈ L * (word "\x7d" * gapText), y ≠ [] → ∀ t, Solid (y ++ t) := by
    intro z hz _ t
    obtain ⟨x, hx, y, hy, rfl⟩ := Language.mem_mul.mp hz
    rw [List.append_assoc]
    rcases eq_or_ne x [] with rfl | hne
    · exact (((hclose.beginsSolid_word (by decide)).mul gapText) y hy).2 t
    · exact hbegin x hx hne (y ++ t)
  simp only [bodyText, mul_assoc]
  refine hR.plain_mul (plainText_nameText s) (hR.carried_gap.mul
    ((hopen.beginsSolid_word (by decide)).mul _).begins ?_)
  exact (hR.mark_gap_mul hopen hbegin' hend).carriedSolid

theorem Carries.enum (e : Enumeration) : Carried R (enumText e) := by
  have hvalues : CarriedSolid R (valuesText e.values) := by
    rintro t u r htu ht ⟨x, ⟨hne, hx⟩, hread⟩ hr
    obtain ⟨r', hu, hrr⟩ := CarriedSolid.prod beginsSolid_valueText hR.value e.values t u r htu ht
      ⟨x, hx, hread⟩ hr
    exact ⟨r', hu.mono fun y hy => ⟨hne, hy⟩, hrr⟩
  rw [enumText, mul_assoc]
  exact hR.plain_mul (plainText_word (plainText_identifier enum_isIdentifier))
    (hR.gap1_mul (beginsSolid_bodyText e.name _)
      (hR.body e.name valuesText_begins hvalues).carriedSolid)

theorem Carries.message (m : Message) : Carried R (messageText m) := by
  have hmembers : CarriedSolid R (mixedText fieldText enumText m.fields m.enums) :=
    CarriedSolid.mixed beginsSolid_fieldText beginsSolid_enumText hR.field hR.enum m.fields m.enums
  have hbody := hR.body m.name (mixedText_begins beginsSolid_fieldText beginsSolid_enumText) hmembers
  rw [messageText, mul_assoc]
  exact hR.plain_mul (plainText_word (plainText_identifier message_isIdentifier))
    (hR.carried_gap.mul (beginsSolid_bodyText m.name _).begins hbody.carriedSolid)

/-- **Texts of files are carried over.** -/
theorem Carries.mem_fileText {t u : List Char} {f : SchemaFile} (htu : R t u)
    (ht : t ∈ fileText f) : u ∈ fileText f := by
  have hdeclarations : CarriedSolid R (mixedText messageText enumText f.messages f.enums) :=
    CarriedSolid.mixed beginsSolid_messageText beginsSolid_enumText hR.message hR.enum f.messages
      f.enums
  have hfile := hR.carried_gap.mul
    (mixedText_begins beginsSolid_messageText beginsSolid_enumText) hdeclarations
  obtain ⟨r', hu, hrr⟩ := hfile t u [] htu (Reads.of_mem_mul ht) solid_nil
  rw [(hR.nil hrr).mp rfl] at hu
  exact hu.mem_of_nil

end Parts

end MessageIdl.Schema
