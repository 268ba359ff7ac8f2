import MessageIdl.Proofs.Schema.Fields

/-!
# Bodies and mixed parts

What enumerations, messages and files have in common.

* `bodyRow`: a name and a body between braces; `bodyRow_ensures`, `takes_bodyRow`.
* `headRow`, `takes_headRow`: the same without the brace that closes the body.
* `eitherRule_ensures`, `takes_either`: a choice between parts of two kinds.
* `mixed_ensures`, `takes_mixed`: rounds of such a choice.
-/

namespace MessageIdl.Schema

open MessageIdl.Peg MessageIdl.Source
open scoped Computability

variable {lines : LineIndex} {text rest : List Char}

/-! ### Bodies -/

/-- A name and a body with `items` between braces. -/
def bodyRow (items : Expr Node) : List (Expr Node) :=
  [name, gap, terminal .openBrace, gap, items, terminal .closeBrace, gap]

theorem closeBrace_ends (t : List Char) : Ends isNameStart ('\x7d' :: t) := ends_cons rfl

theorem closeBrace_solid (t : List Char) : Solid ('\x7d' :: t) := solid_cons (by decide)

theorem openBrace_solid (t : List Char) : Solid ('\x7b' :: t) := solid_cons (by decide)

/-- The values of a body: the name comes first, and what stands between the braces fifth. -/
def BodyValues (s : String) (P : Value Node → Prop) (xs : List (Value Node)) : Prop :=
  ∃ v x₁ x₂ x₃ x₅ x₆, xs = [.text s, x₁, x₂, x₃, v, x₅, x₆] ∧ P v

/-- Where the parts of a body stand: its name, a gap, the brace that opens it, a gap, from `a` to `b` what
stands between the braces, the brace that closes it, and a gap. -/
def BodyStands (s : String) (c a b stop : Cursor) : Prop :=
  ∃ c₁ c₂ c₃ c₆, (isIdentifier s = true ∧ c.rest = s.toList ++ c₁.rest ∧ c.Reaches c₁) ∧
    (Reads gapText c₁.rest c₂.rest ∧ c₁.Reaches c₂) ∧
    (c₂.rest = '\x7b' :: c₃.rest ∧ c₂.Reaches c₃) ∧
    (Reads gapText c₃.rest a.rest ∧ c₃.Reaches a) ∧
    (b.rest = '\x7d' :: c₆.rest ∧ b.Reaches c₆) ∧
    (Reads gapText c₆.rest stop.rest ∧ c₆.Reaches stop)

/-- Whatever is ensured of `items` holds between the braces. -/
theorem bodyRow_stands {items : Expr Node} {R : Cursor → Cursor → Value Node → Prop}
    (h : Ensures rules.find lines items R) :
    EnsuresRow rules.find lines (bodyRow items) (fun c stop xs =>
      ∃ s v a b, BodyValues s (· = v) xs ∧ BodyStands s c a b stop ∧ R a b v) := by
  refine Ensures.imp (name_ensures.reached.row_cons (gap_ensures.reached.row_cons
    ((Ensures.literal _).reached.row_cons (gap_ensures.reached.row_cons (h.row_cons
    ((Ensures.literal _).reached.row_cons (gap_ensures.reached.row_cons .nil)))))))
    fun c stop v _ hv => ?_
  obtain ⟨xs, rfl, c₁, _, _, ⟨⟨s, rfl, hs, h₁⟩, r₁⟩, ⟨c₂, _, _, h₂, ⟨c₃, _, _, ⟨⟨h₃, -⟩, r₃⟩,
    ⟨a, _, _, h₄, ⟨b, _, _, hR, ⟨c₆, _, _, ⟨⟨h₆, -⟩, r₆⟩, ⟨c₇, _, _, h₇, ⟨rfl, rfl⟩, rfl⟩, rfl⟩, rfl⟩,
    rfl⟩, rfl⟩, rfl⟩, rfl⟩ := hv
  exact ⟨_, rfl, s, _, a, b, ⟨_, _, _, _, _, _, rfl, rfl⟩,
    ⟨c₁, c₂, c₃, c₆, ⟨hs, h₁, r₁⟩, h₂, ⟨h₃, r₃⟩, h₄, ⟨h₆, r₆⟩, h₇⟩, hR⟩

theorem bodyRow_ensures {A : Type} {items : Expr Node} {L : A → Language Char}
    {value : A → Value Node}
    (h : Ensures rules.find lines items
      (fun c stop v => ∃ a, v = value a ∧ Reads (L a) c.rest stop.rest)) :
    EnsuresRow rules.find lines (bodyRow items) (fun c stop xs =>
      ∃ s a, BodyValues s (· = value a) xs ∧ Reads (bodyText s (L a)) c.rest stop.rest) := by
  refine (bodyRow_stands h).imp fun c stop v _ hv => ?_
  obtain ⟨xs, rfl, s, _, c₄, c₅, hvalues, ⟨c₁, c₂, c₃, c₆, ⟨hs, h₁, -⟩, ⟨h₂, -⟩, ⟨h₃, -⟩, ⟨h₄, -⟩,
    ⟨h₆, -⟩, ⟨h₇, -⟩⟩, a, rfl, h₅⟩ := hv
  have hname : Reads (nameText s) c.rest c₁.rest := by
    rw [h₁]
    exact Reads.of_mem (mem_nameText.mpr ⟨hs, rfl⟩) _
  have hopen : Reads (word "\x7b") c₂.rest c₃.rest := .of_word h₃
  have hclose : Reads (word "\x7d") c₅.rest c₆.rest := .of_word h₆
  exact ⟨xs, rfl, s, a, hvalues, (((((hname.mul h₂).mul hopen).mul h₄).mul h₅).mul hclose).mul h₇⟩

/-- A body begins with a name. -/
theorem name_of_body {s : String} {L : Language Char} (h : Reads (bodyText s L) text rest) :
    isIdentifier s = true ∧ ∃ t, text = s.toList ++ t := by
  simp only [bodyText, mul_assoc] at h
  obtain ⟨_, ⟨hs, rfl⟩, t, rfl, -⟩ := h.uncons
  exact ⟨hs, t, rfl⟩

theorem body_ne_nil {s : String} {L : Language Char} (h : Reads (bodyText s L) text rest) :
    text ≠ [] := by
  obtain ⟨hs, t, rfl⟩ := name_of_body h
  exact ne_nil_of_name hs rfl

theorem solid_body {s : String} {L : Language Char} (h : Reads (bodyText s L) text rest) :
    Solid text := by
  obtain ⟨hs, t, rfl⟩ := name_of_body h
  exact solid_name hs t

/-- A name and what stands between braces, without the brace that closes them. -/
def headRow (items : Expr Node) : List (Expr Node) := [name, gap, terminal .openBrace, gap, items]

/-- The texts of bodies up to the brace that closes them. -/
def headText (s : String) (L : Language Char) : Language Char :=
  nameText s * gapText * word "\x7b" * gapText * L

theorem bodyText_eq (s : String) (L : Language Char) :
    bodyText s L = headText s L * (word "\x7d" * gapText) := by
  rw [bodyText, headText, mul_assoc]

theorem solid_head {s : String} {M : Language Char} {y : List Char} (hy : y ∈ headText s M)
    (t : List Char) : Solid (y ++ t) := by
  simp only [headText, mul_assoc] at hy
  obtain ⟨_, ⟨hs, rfl⟩, z, -, rfl⟩ := Language.mem_mul.mp hy
  rw [List.append_assoc]
  exact solid_name hs (z ++ t)

/-- A body is taken up to the brace that closes it, if what stands between the braces is. -/
theorem takes_headRow {items : Expr Node} {s : String} {L : Language Char} {P : Value Node → Prop}
    (hbegin : ∀ x ∈ L, x ≠ [] → ∀ t, Solid (x ++ t))
    (hitems : ∀ t u, Reads L t ('\x7d' :: u) → Solid t →
      Takes rules.find lines items t ('\x7d' :: u) P)
    {y : List Char} (hy : y ∈ headText s L) (t : List Char) :
    TakesRow rules.find lines (headRow items) (y ++ '\x7d' :: t) ('\x7d' :: t)
      (fun xs => ∃ x₁ x₂ x₃ v, xs = [.text s, x₁, x₂, x₃, v] ∧ P v) := by
  simp only [headText, mul_assoc] at hy
  obtain ⟨_, ⟨hname, rfl⟩, _, h₁, rfl⟩ := Language.mem_mul.mp hy
  obtain ⟨g₁, hg₁, _, h₂, rfl⟩ := Language.mem_mul.mp h₁
  obtain ⟨_, rfl, _, h₃, rfl⟩ := Language.mem_mul.mp h₂
  obtain ⟨g₂, hg₂, x, hx, rfl⟩ := Language.mem_mul.mp h₃
  have hsolid : Solid (x ++ '\x7d' :: t) := by
    rcases eq_or_ne x [] with rfl | hne
    · exact closeBrace_solid t
    · exact hbegin x hx hne _
  have hhead : Takes rules.find lines name (s.toList ++ (g₁ ++ '\x7b' :: (g₂ ++ (x ++ '\x7d' :: t))))
      _ _ := takes_name hname (ends_gap hg₁ (ends_cons rfl))
  have hrow := hhead.row_cons <|
    (takes_gap (Reads.of_mem hg₁ _) (openBrace_solid _)).row_cons <|
    (Takes.literal "\x7b" _).row_cons <|
    (takes_gap (Reads.of_mem hg₂ _) hsolid).row_cons <|
    (hitems _ t (Reads.of_mem hx _) hsolid).row_cons .nil
  simp only [List.append_assoc]
  refine Takes.imp hrow fun v hv => ?_
  obtain ⟨xs, rfl, _, _, rfl, ⟨x₁, _, -, ⟨x₂, _, -, ⟨x₃, _, -, ⟨v, _, hP, rfl, rfl⟩, rfl⟩, rfl⟩, rfl⟩,
    rfl⟩ := hv
  exact ⟨_, rfl, x₁, x₂, x₃, v, rfl, hP⟩

/-- A body is taken if what stands between its braces is taken up to the closing one. -/
theorem takes_bodyRow {items : Expr Node} {s : String} {L : Language Char} {P : Value Node → Prop}
    (hbegin : ∀ x ∈ L, x ≠ [] → ∀ t, Solid (x ++ t))
    (hitems : ∀ t u, Reads L t ('\x7d' :: u) → Solid t →
      Takes rules.find lines items t ('\x7d' :: u) P)
    (h : Reads (bodyText s L) text rest) (hrest : Solid rest) :
    TakesRow rules.find lines (bodyRow items) text rest (BodyValues s P) := by
  rw [bodyText_eq] at h
  obtain ⟨y, hy, t₁, rfl, h₁⟩ := h.uncons
  obtain ⟨_, rfl, t, rfl, hgap⟩ := h₁.uncons
  have hclose : TakesRow rules.find lines [terminal .closeBrace, gap] ('\x7d' :: t) rest _ :=
    (Takes.literal "\x7d" t).row_cons ((takes_gap hgap hrest).row_cons .nil)
  have hrow : TakesRow rules.find lines (bodyRow items) (y ++ '\x7d' :: t) rest _ :=
    (takes_headRow hbegin hitems hy t).append hclose
  refine Takes.imp hrow fun v hv => ?_
  obtain ⟨_, rfl, _, _, ⟨x₁, x₂, x₃, v, rfl, hP⟩, ⟨x₅, _, -, ⟨x₆, _, -, rfl, rfl⟩, rfl⟩, rfl⟩ := hv
  exact ⟨_, rfl, v, x₁, x₂, x₃, x₅, x₆, rfl, hP⟩

/-! ### A choice between parts of two kinds -/

section Mixed

variable {A B : Type} {textA : A → Language Char} {textB : B → Language Char} {nodeA : A → Node}
  {nodeB : B → Node} {bareA : A → A} {bareB : B → B} {ruleA ruleB : Expr Node}

/-- The node of a part of either kind. -/
def eitherNode (nodeA : A → Node) (nodeB : B → Node) (p : A ⊕ B) : Value Node :=
  .node (p.elim nodeA nodeB)

/-- Two alternatives that pass their nodes on. -/
def eitherRule (ruleA ruleB : Expr Node) : Expr Node :=
  .choice [boundBody passOn [ruleA], boundBody passOn [ruleB]]

theorem eitherRule_stands {R : A → Cursor → Cursor → Prop} {S : B → Cursor → Cursor → Prop}
    (hA : Ensures rules.find lines ruleA (fun c stop v => ∃ a, v = .node (nodeA a) ∧ R a c stop))
    (hB : Ensures rules.find lines ruleB (fun c stop v => ∃ b, v = .node (nodeB b) ∧ S b c stop)) :
    Ensures rules.find lines (eitherRule ruleA ruleB) (fun c stop v =>
      ∃ p, v = eitherNode nodeA nodeB p ∧ Sum.elim R S p c stop) := by
  refine ((ensures_passOn hA).imp fun c stop v _ h => ?_).choice_cons
    (((ensures_passOn hB).imp fun c stop v _ h => ?_).choice_cons .choice_nil)
  · obtain ⟨a, rfl, ha⟩ := h
    exact ⟨.inl a, rfl, ha⟩
  · obtain ⟨b, rfl, hb⟩ := h
    exact ⟨.inr b, rfl, hb⟩

theorem eitherRule_ensures
    (hA : Ensures rules.find lines ruleA
      (fun c stop v => ∃ a, v = .node (nodeA a) ∧ Reads (textA a) c.rest stop.rest))
    (hB : Ensures rules.find lines ruleB
      (fun c stop v => ∃ b, v = .node (nodeB b) ∧ Reads (textB b) c.rest stop.rest)) :
    Ensures rules.find lines (eitherRule ruleA ruleB) (fun c stop v =>
      ∃ p, v = eitherNode nodeA nodeB p ∧ Reads (p.elim textA textB) c.rest stop.rest) := by
  refine (eitherRule_stands hA hB).imp fun c stop v _ h => ?_
  obtain ⟨p, rfl, hp⟩ := h
  refine ⟨p, rfl, ?_⟩
  cases p with
  | inl a => exact hp
  | inr b => exact hp

/-- A part of the second kind is taken where the first kind refuses. -/
theorem takes_either
    (hA : ∀ a t r, Reads (textA a) t r → Solid r →
      Takes rules.find lines ruleA t r (fun v => ∃ a', v = .node (nodeA a') ∧ bareA a' = bareA a))
    (hB : ∀ b t r, Reads (textB b) t r → Solid r →
      Takes rules.find lines ruleB t r (fun v => ∃ b', v = .node (nodeB b') ∧ bareB b' = bareB b))
    (hAB : ∀ b t r, Reads (textB b) t r → Refuses rules.find lines ruleA t)
    (p : A ⊕ B) (t r : List Char) (h : Reads (p.elim textA textB) t r) (hr : Solid r) :
    Takes rules.find lines (eitherRule ruleA ruleB) t r (fun v =>
      ∃ p', v = eitherNode nodeA nodeB p' ∧ p'.map bareA bareB = p.map bareA bareB) := by
  cases p with
  | inl a =>
    refine (takes_passOn (hA a t r h hr)).choice_head.imp fun v hv => ?_
    obtain ⟨a', rfl, ha'⟩ := hv
    exact ⟨.inl a', rfl, congrArg Sum.inl ha'⟩
  | inr b =>
    have hleft := refuses_passOn (hAB b t r h)
    have hright := takes_passOn (hB b t r h hr)
    refine (hright.choice_head.choice_tail hleft).imp fun v hv => ?_
    obtain ⟨b', rfl, hb'⟩ := hv
    exact ⟨.inr b', rfl, congrArg Sum.inr hb'⟩

theorem refuses_either (hA : Refuses rules.find lines ruleA text)
    (hB : Refuses rules.find lines ruleB text) :
    Refuses rules.find lines (eitherRule ruleA ruleB) text := by
  refine .choice fun e he => ?_
  simp only [List.mem_cons, List.not_mem_nil, or_false] at he
  rcases he with rfl | rfl
  · exact refuses_passOn hA
  · exact refuses_passOn hB

/-! ### Rounds -/

theorem beginsSolid_either (hA : ∀ a, BeginsSolid (textA a)) (hB : ∀ b, BeginsSolid (textB b))
    (p : A ⊕ B) : BeginsSolid (p.elim textA textB) := by
  cases p with
  | inl a => exact hA a
  | inr b => exact hB b

/-- Mixed parts in a row begin like one of them. -/
theorem mixedText_begins (hA : ∀ a, BeginsSolid (textA a)) (hB : ∀ b, BeginsSolid (textB b))
    {as : List A} {bs : List B} :
    ∀ x ∈ mixedText textA textB as bs, x ≠ [] → ∀ t, Solid (x ++ t) := by
  rintro x ⟨parts, -, -, hx⟩
  exact BeginsSolid.prod (beginsSolid_either hA hB) parts x hx

theorem mixed_ensures {rule : Expr Node}
    (h : Ensures rules.find lines rule (fun c stop v =>
      ∃ p, v = eitherNode nodeA nodeB p ∧ Reads (p.elim textA textB) c.rest stop.rest)) :
    Ensures rules.find lines (.repeated 0 rule) (fun c stop v => ∃ parts : List (A ⊕ B),
      v = .list (parts.map (eitherNode nodeA nodeB)) ∧
        Reads (mixedText textA textB (parts.filterMap Sum.getLeft?)
          (parts.filterMap Sum.getRight?)) c.rest stop.rest) := by
  have hitems : Ensures rules.find lines rule (fun c stop v => ∃ p,
      v = eitherNode nodeA nodeB p ∧ Reads (Sum.elim textA textB p) c.rest stop.rest) := h
  refine (ensures_items hitems).imp fun c stop v _ hv => ?_
  obtain ⟨parts, rfl, hr⟩ := hv
  exact ⟨parts, rfl, hr.mono fun x hx => ⟨parts, rfl, rfl, hx⟩⟩

/-- The values of rounds that took the mixed parts `as` and `bs`, up to what `bareA` and `bareB`
leave out. -/
def MixedValue (nodeA : A → Node) (nodeB : B → Node) (bareA : A → A) (bareB : B → B)
    (as : List A) (bs : List B) (v : Value Node) : Prop :=
  ∃ parts : List (A ⊕ B), v = .list (parts.map (eitherNode nodeA nodeB)) ∧
    (parts.filterMap Sum.getLeft?).map bareA = as.map bareA ∧
    (parts.filterMap Sum.getRight?).map bareB = bs.map bareB

/-- **Mixed parts are taken in their order**, each kind for itself. -/
theorem takes_mixed {rule : Expr Node} (hA : ∀ a, BeginsSolid (textA a))
    (hB : ∀ b, BeginsSolid (textB b))
    (htake : ∀ p t r, Reads (Sum.elim textA textB p) t r → Solid r →
      Takes rules.find lines rule t r (fun v =>
        ∃ p', v = eitherNode nodeA nodeB p' ∧ p'.map bareA bareB = p.map bareA bareB))
    (hrefuse : Refuses rules.find lines rule rest) (hrest : Solid rest) {as : List A} {bs : List B}
    (h : Reads (mixedText textA textB as bs) text rest) (htext : Solid text) :
    Takes rules.find lines (.repeated 0 rule) text rest
      (MixedValue nodeA nodeB bareA bareB as bs) := by
  obtain ⟨x, ⟨parts, rfl, rfl, hx⟩, tail, ht, hl⟩ := h
  have hread : Reads (parts.map (Sum.elim textA textB)).prod text rest := ⟨x, hx, tail, ht, hl⟩
  have htakes := takes_items (beginsSolid_either hA hB) htake hrefuse hrest parts text hread htext
  refine htakes.imp fun v hv => ?_
  obtain ⟨parts', rfl, hbare⟩ := hv
  refine ⟨parts', rfl, ?_, ?_⟩
  · rw [map_filterMap_getLeft bareA bareB, map_filterMap_getLeft bareA bareB, hbare]
  · rw [map_filterMap_getRight bareA bareB, map_filterMap_getRight bareA bareB, hbare]

end Mixed

end MessageIdl.Schema
