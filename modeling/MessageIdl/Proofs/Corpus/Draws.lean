import MessageIdl.Corpus.Names
import MessageIdl.Proofs.Schema.Terminals

/-!
# What can be drawn

Nothing is known of a stream but that its answers are in range, so a fact about a draw is one about all
of its results.

* `Draw.Gives`: all results of a draw have a property, with a lemma for each way to make draws of draws.
* `Stream.between_gives`, `Stream.choose_gives`: results are in range.
* `anyName_gives`, `fresh_gives`, `fieldName_gives`: generated names are names.
* `freshTypes_gives`, `IsTypeWord.isTypeName`: those of types begin with a capital, so they name types.
* `claimAll_spec`: names that are made new are still names.
-/

namespace MessageIdl.Corpus

open MessageIdl.Schema

variable {σ α β : Type} {P : α → Prop} {Q : β → Prop}

/-- All results of a draw have the property, whatever the state that it starts from. -/
def Draw.Gives (d : Draw σ α) (P : α → Prop) : Prop := ∀ s a s', d s = some (a, s') → P a

namespace Draw.Gives

variable {d : Draw σ α}

theorem imp {P' : α → Prop} (hd : d.Gives P) (h : ∀ a, P a → P' a) : d.Gives P' :=
  fun s a s' hs => h a (hd s a s' hs)

theorem any (d : Draw σ α) : d.Gives fun _ => True := fun _ _ _ _ => trivial

theorem none : (Draw.none : Draw σ α).Gives P := by
  intro s a s' h
  cases h

theorem pure {a : α} (h : P a) : (Pure.pure a : Draw σ α).Gives P := by
  intro s a' s' hs
  cases hs
  exact h

theorem bind {f : α → Draw σ β} (hd : d.Gives P) (hf : ∀ a, P a → (f a).Gives Q) :
    (d >>= f).Gives Q := by
  intro s b s' h
  change (d s).bind (fun p => f p.1 p.2) = some (b, s') at h
  obtain ⟨⟨a, s₁⟩, ha, hb⟩ := Option.bind_eq_some_iff.mp h
  exact hf a (hd s a s₁ ha) s₁ b s' hb

theorem map {g : α → β} (hd : d.Gives fun a => Q (g a)) : (g <$> d).Gives Q := by
  intro s b s' h
  change (d s).bind (fun p => some (g p.1, p.2)) = some (b, s') at h
  obtain ⟨⟨a, s₁⟩, ha, hb⟩ := Option.bind_eq_some_iff.mp h
  cases hb
  exact hd s a s₁ ha

theorem ofOption {o : Option α} (h : ∀ a ∈ o, P a) : (Draw.ofOption o : Draw σ α).Gives P := by
  intro s a s' hs
  obtain ⟨a', ha', hpair⟩ := Option.map_eq_some_iff.mp hs
  cases hpair
  exact h a ha'

theorem times (hd : d.Gives P) (n : Nat) :
    (Corpus.times d n).Gives fun as => as.length = n ∧ ∀ a ∈ as, P a := by
  induction n with
  | zero => exact pure ⟨rfl, fun a ha => absurd ha List.not_mem_nil⟩
  | succ n ih =>
    refine bind hd fun a ha => bind ih fun as has => pure ⟨?_, ?_⟩
    · rw [List.length_cons, has.1]
    · exact List.forall_mem_cons.mpr ⟨ha, has.2⟩

theorem forEach {f : α → Draw σ β} {R : α → β → Prop} {as : List α}
    (hf : ∀ a ∈ as, (f a).Gives (R a)) : (Corpus.forEach f as).Gives (List.Forall₂ R as) := by
  induction as with
  | nil => exact pure .nil
  | cons a as ih =>
    refine bind (hf a List.mem_cons_self) fun b hb => ?_
    exact bind (ih fun a' ha' => hf a' (List.mem_cons_of_mem a ha')) fun bs hbs => pure (.cons hb hbs)

end Draw.Gives

/-! ### Draws from a stream -/

namespace Stream

variable (r : Stream σ)

theorem drawBelow_gives (n : Nat) : (r.drawBelow n).Gives (· < n) :=
  fun s k s' h => r.below_lt n k s s' h

theorem between_gives {low high : Nat} (h : low ≤ high) :
    (r.between low high).Gives fun k => low ≤ k ∧ k ≤ high := by
  refine .map ((r.drawBelow_gives _).imp fun k hk => ?_)
  omega

theorem choose_gives (xs : List α) : (r.choose xs).Gives (· ∈ xs) := by
  refine .bind (r.drawBelow_gives _) fun i _ => .ofOption fun a ha => ?_
  exact List.mem_of_getElem? ha

end Stream

/-! ### Names -/

variable (r : Stream σ)

/-- A name with a capital at its front. -/
def IsTypeWord (s : String) : Prop :=
  isIdentifier s = true ∧ ∃ c ∈ capitals, s.toList.head? = some c

theorem isNameStart_of_mem_heads (kind : NameKind) : ∀ c ∈ kind.heads, isNameStart c = true := by
  refine List.all_eq_true.mp ?_
  cases kind <;> decide

theorem isNamePart_of_mem_tails (kind : NameKind) : ∀ c ∈ kind.tails, isNamePart c = true := by
  refine List.all_eq_true.mp ?_
  cases kind <;> decide

theorem anyName_gives (kind : NameKind) : (anyName r kind).Gives fun s =>
    isIdentifier s = true ∧ ∃ c ∈ kind.heads, s.toList.head? = some c := by
  refine .bind (r.choose_gives kind.heads) fun c hc => .bind (.any _) fun n _ => ?_
  refine .bind ((r.choose_gives kind.tails).times n) fun tail htail => .pure ?_
  rw [isIdentifier_iff, String.toList_ofList]
  refine ⟨⟨c, tail, rfl, isNameStart_of_mem_heads kind c hc, fun d hd => ?_⟩, c, hc, rfl⟩
  exact isNamePart_of_mem_tails kind d (htail.2 d hd)

theorem freshWithin_gives (kind : NameKind) (avoid : List String) (rounds : Nat) :
    (freshWithin r kind avoid rounds).Gives fun s =>
      isIdentifier s = true ∧ ∃ c ∈ kind.heads, s.toList.head? = some c := by
  induction rounds with
  | zero => exact .none
  | succ rounds ih =>
    refine .bind (anyName_gives r kind) fun name hname => ?_
    split
    · exact ih
    · exact .pure hname

theorem fresh_gives (kind : NameKind) (p : NamePool) : (p.fresh r kind).Gives fun x =>
    isIdentifier x.1 = true ∧ ∃ c ∈ kind.heads, x.1.toList.head? = some c :=
  .bind (freshWithin_gives r kind _ _) fun _ hname => .pure hname

theorem fieldName_gives (p scope : NamePool) :
    (p.freshIn r .field scope).Gives fun x => isIdentifier x.1 = true :=
  .bind (freshWithin_gives r .field _ _) fun _ hname => .pure hname.1

theorem freshTypes_gives (n : Nat) (p : NamePool) : (NamePool.freshTypes r n p).Gives fun x =>
    x.1.length = n ∧ ∀ s ∈ x.1, IsTypeWord s := by
  induction n generalizing p with
  | zero => exact .pure ⟨rfl, fun s hs => absurd hs List.not_mem_nil⟩
  | succ n ih =>
    refine .bind (fresh_gives r .type p) fun ⟨name, p⟩ hname => ?_
    refine .bind (ih p) fun ⟨names, p⟩ hnames => .pure ⟨?_, ?_⟩
    · rw [List.length_cons, hnames.1]
    · exact List.forall_mem_cons.mpr ⟨hname, hnames.2⟩

/-- No keyword begins with a capital, so such a name is read as a type. -/
theorem IsTypeWord.isTypeName {s : String} (h : IsTypeWord s) : IsTypeName s ∧ s ≠ "repeated" := by
  obtain ⟨hs, c, hc, hhead⟩ := h
  have hnot (w : String) (hw : w.toList.head?.all (· ∉ capitals) ∧ w.toList ≠ []) :
      ¬ w.toList <+: s.toList := by
    rintro ⟨u, hu⟩
    cases hwl : w.toList with
    | nil => exact hw.2 hwl
    | cons d w' =>
      rw [← hu, hwl] at hhead
      cases hhead
      have hd := hw.1
      rw [hwl] at hd
      exact of_decide_eq_true hd hc
  have hkeywords : ∀ k ∈ Scalar.all,
      (k.keyword.toList.head?.all (· ∉ capitals)) ∧ k.keyword.toList ≠ [] := by decide
  refine ⟨.inr ⟨hs, fun k hk => hnot k.keyword (hkeywords k hk)⟩, ?_⟩
  rintro rfl
  exact hnot "repeated" (by decide) (List.prefix_refl _)

/-! ### Names made new -/

/-- A name goes on with characters of names. -/
theorem isIdentifier_append {s : String} (hs : isIdentifier s = true) {t : String}
    (ht : ∀ c ∈ t.toList, isNamePart c = true) : isIdentifier (s ++ t) = true := by
  obtain ⟨c, u, hcu, hc, hu⟩ := isIdentifier_iff.mp hs
  refine isIdentifier_iff.mpr ⟨c, u ++ t.toList, ?_, hc, fun d hd => ?_⟩
  · rw [String.toList_append, hcu, List.cons_append]
  · exact (List.mem_append.mp hd).elim (hu d) (ht d)

theorem lengthen_isIdentifier (p : NamePool) (rounds : Nat) {name : String}
    (hname : isIdentifier name = true) : isIdentifier (p.lengthen rounds name) = true := by
  induction rounds generalizing name with
  | zero => exact hname
  | succ rounds ih =>
    rw [NamePool.lengthen]
    split
    · exact ih (isIdentifier_append hname (List.all_eq_true.mp (by decide)))
    · exact hname

theorem claimAll_spec (names : List String) : ∀ p : NamePool,
    (∀ s ∈ names, isIdentifier s = true) → (p.claimAll names).1.length = names.length ∧
      ∀ s ∈ (p.claimAll names).1, isIdentifier s = true := by
  induction names with
  | nil => exact fun p _ => ⟨rfl, fun s hs => absurd hs List.not_mem_nil⟩
  | cons name names ih =>
    intro p h
    obtain ⟨hlength, hall⟩ := ih (p.claim name).2 fun s hs => h s (List.mem_cons_of_mem name hs)
    refine ⟨congrArg Nat.succ hlength, List.forall_mem_cons.mpr ⟨?_, hall⟩⟩
    exact lengthen_isIdentifier p _ (h name List.mem_cons_self)

end MessageIdl.Corpus
