import MessageIdl.Corpus.Sketch
import MessageIdl.Proofs.Corpus.Draws

/-!
# Names in their scopes

All names of a file but those of fields share one scope, and the fields of a message have one of their own.
Every name is looked up in the pools of its scopes before it is taken.

* `NamePool.HandsOut`: the names by which a pool has grown, none of which was taken before.
* `NamePool.claim_handsOut`, `freshTypes_handsOut`: what claiming and drawing names hands out.
* `FieldsFit`, `MessageFits`, `DeclarationsFit`: parts of a file that fit into their scopes, one step of the
  drawing after the other.
* `sketchFile_fits`: a sketch of a file fits into its scopes.
-/

namespace MessageIdl.Corpus

open MessageIdl.Schema

/-! ### Pools that hand out names -/

/-- From the pool `p`, the names `names` were handed out in turn, and none of them had been taken before. -/
structure NamePool.HandsOut (p : NamePool) (names : List String) (q : NamePool) : Prop where
  taken_eq : q.taken = (names.map fold).reverse ++ p.taken
  nodup : p.taken.Nodup → q.taken.Nodup

namespace NamePool

variable {p q s : NamePool} {name : String} {names more : List String}

namespace HandsOut

theorem nil (p : NamePool) : p.HandsOut [] p := ⟨rfl, id⟩

theorem append (h : p.HandsOut names q) (hmore : q.HandsOut more s) : p.HandsOut (names ++ more) s where
  taken_eq := by rw [hmore.taken_eq, h.taken_eq, List.map_append, List.reverse_append, List.append_assoc]
  nodup hp := hmore.nodup (h.nodup hp)

theorem cons (h : p.HandsOut [name] q) (hmore : q.HandsOut names s) : p.HandsOut (name :: names) s :=
  h.append hmore

theorem take (h : fold name ∉ p.taken) : p.HandsOut [name] (p.take name) where
  taken_eq := rfl
  nodup hp := List.nodup_cons.mpr ⟨h, hp⟩

/-- What is handed out is taken. -/
theorem fold_mem (h : p.HandsOut names q) (hname : name ∈ names) : fold name ∈ q.taken := by
  rw [h.taken_eq]
  exact List.mem_append_left _ (List.mem_reverse.mpr (List.mem_map_of_mem hname))

/-- What was taken stays so. -/
theorem subset (h : p.HandsOut names q) : p.taken ⊆ q.taken := by
  rw [h.taken_eq]
  exact List.subset_append_right _ _

/-- Names that are handed out from an empty pool are different, also without case and underscores. -/
theorem nodup_fold (h : ({} : NamePool).HandsOut names q) : (names.map fold).Nodup := by
  have hnodup := h.nodup List.nodup_nil
  rw [h.taken_eq, List.append_nil] at hnodup
  exact List.nodup_reverse.mp hnodup

end HandsOut

/-! ### Claimed names -/

theorem length_fold_append (name more : String) :
    (fold (name ++ more)).toList.length = (fold name).toList.length + (fold more).toList.length := by
  simp only [fold, String.toList_ofList, String.toList_append, List.filter_append, Text.length_lower_append]

/-- As long as a name is taken, the longer one has fewer names of its length or more to be compared with.
So it takes no more rounds than there are such names. -/
theorem fold_lengthen_not_mem (p : NamePool) (rounds : Nat) (name : String)
    (h : (p.taken.filter fun t => (fold name).toList.length ≤ t.toList.length).length ≤ rounds) :
    fold (p.lengthen rounds name) ∉ p.taken := by
  induction rounds generalizing name with
  | zero =>
    intro hmem
    have hnil := List.length_eq_zero_iff.mp (Nat.le_zero.mp h)
    exact List.not_mem_nil (hnil ▸ List.mem_filter.mpr ⟨hmem, decide_eq_true (Nat.le_refl _)⟩)
  | succ rounds ih =>
    rw [lengthen]
    split
    · rename_i hmem
      refine ih _ (Nat.le_of_lt_succ (Nat.lt_of_lt_of_le ?_ h))
      have hlonger : (fold name).toList.length < (fold (name ++ "_X")).toList.length := by
        rw [length_fold_append]
        exact Nat.lt_add_of_pos_right (by decide)
      have hfilter : (p.taken.filter fun t => (fold (name ++ "_X")).toList.length ≤ t.toList.length)
          = (p.taken.filter fun t => (fold name).toList.length ≤ t.toList.length).filter
            fun t => (fold (name ++ "_X")).toList.length ≤ t.toList.length := by
        rw [List.filter_filter]
        refine List.filter_congr fun t _ => Bool.eq_iff_iff.mpr ?_
        simp only [Bool.and_eq_true, decide_eq_true_eq]
        omega
      rw [hfilter, List.length_filter_lt_length_iff_exists]
      refine ⟨fold name, List.mem_filter.mpr ⟨List.contains_iff_mem.mp hmem, ?_⟩, ?_⟩
      · exact decide_eq_true (Nat.le_refl _)
      · exact fun hle => absurd (of_decide_eq_true hle) (Nat.not_le_of_lt hlonger)
    · rename_i hmem
      exact fun hmem' => hmem (List.contains_iff_mem.mpr hmem')

theorem claim_handsOut (p : NamePool) (name : String) : p.HandsOut [(p.claim name).1] (p.claim name).2 :=
  .take (fold_lengthen_not_mem p _ name (List.length_filter_le _ _))

theorem claimAll_handsOut (p : NamePool) (names : List String) :
    p.HandsOut (p.claimAll names).1 (p.claimAll names).2 := by
  induction names generalizing p with
  | nil => exact .nil p
  | cons name names ih => exact .cons (p.claim_handsOut name) (ih _)

end NamePool

/-! ### Drawn names -/

variable {σ : Type} (r : Stream σ)

/-- A name that may be handed out is no reserved word. -/
theorem not_mem_reserved {name : String} (h : isUsable name = true) : name ∉ reserved := by
  have hcontains := (Bool.and_eq_true_iff.mp h).2
  rw [Bool.not_eq_true', Bool.eq_false_iff, ne_eq, List.contains_iff_mem] at hcontains
  exact hcontains

theorem freshWithin_new (kind : NameKind) (avoid : List String) (rounds : Nat) :
    (freshWithin r kind avoid rounds).Gives fun s => fold s ∉ avoid ∧ s ∉ reserved := by
  induction rounds with
  | zero => exact .none
  | succ rounds ih =>
    refine .bind (.any _) fun name _ => ?_
    split
    · exact ih
    · rename_i h
      obtain ⟨husable, havoid⟩ := not_or.mp (mt (Bool.or_eq_true _ _).mpr h)
      refine .pure ⟨fun hmem => havoid (List.contains_iff_mem.mpr hmem), not_mem_reserved ?_⟩
      rwa [Bool.not_eq_true', Bool.not_eq_false] at husable

theorem fresh_handsOut (kind : NameKind) (p : NamePool) :
    (p.fresh r kind).Gives fun x => p.HandsOut [x.1] x.2 ∧ x.1 ∉ reserved :=
  .bind (freshWithin_new r kind _ _) fun _ hname => .pure ⟨.take hname.1, hname.2⟩

theorem freshTypes_handsOut (n : Nat) (p : NamePool) : (NamePool.freshTypes r n p).Gives fun x =>
    x.1.length = n ∧ p.HandsOut x.1 x.2 ∧ ∀ name ∈ x.1, name ∉ reserved := by
  induction n generalizing p with
  | zero => exact .pure ⟨rfl, .nil p, fun name hname => absurd hname List.not_mem_nil⟩
  | succ n ih =>
    refine .bind (fresh_handsOut r .type p) fun ⟨name, p⟩ hname => ?_
    refine .bind (ih p) fun ⟨names, p⟩ hnames => .pure ⟨?_, hname.1.cons hnames.2.1, ?_⟩
    · rw [List.length_cons, hnames.1]
    · exact List.forall_mem_cons.mpr ⟨hname.2, hnames.2.2⟩

/-! ### Drawn orders -/

theorem swap_perm {α : Type} (xs : List α) (i j : Nat) : (Stream.swap xs i j).Perm xs := by
  unfold Stream.swap
  split
  · rename_i x y hx hy
    obtain ⟨hi, rfl⟩ := List.getElem?_eq_some_iff.mp hx
    obtain ⟨hj, rfl⟩ := List.getElem?_eq_some_iff.mp hy
    exact List.set_set_perm hi hj
  · exact .refl xs

theorem shuffleFrom_gives {α : Type} (n : Nat) (xs : List α) :
    (r.shuffleFrom n xs).Gives (List.Perm · xs) := by
  induction n generalizing xs with
  | zero => exact .pure (.refl xs)
  | succ n ih => exact .bind (.any _) fun j _ => (ih _).imp fun ys hys => hys.trans (swap_perm xs _ j)

theorem shuffle_gives {α : Type} (xs : List α) : (r.shuffle xs).Gives (List.Perm · xs) :=
  shuffleFrom_gives r _ xs

/-! ### Enumerations -/

theorem sketchValues_handsOut (name : String) (pool : NamePool) :
    (sketchValues r name pool).Gives fun x => pool.HandsOut x.1 x.2 :=
  .bind (.any _) fun _ _ => .pure (pool.claimAll_handsOut _)

theorem sketchEnums_handsOut (names : List String) (pool : NamePool) :
    (sketchEnums r names pool).Gives fun x =>
      x.1.map EnumSketch.name = names ∧ pool.HandsOut (x.1.flatMap EnumSketch.values) x.2 := by
  induction names generalizing pool with
  | nil => exact .pure ⟨rfl, .nil pool⟩
  | cons name names ih =>
    refine .bind (sketchValues_handsOut r name pool) fun ⟨values, pool⟩ hvalues => ?_
    refine .bind (ih pool) fun ⟨enums, pool⟩ henums => .pure ⟨?_, ?_⟩
    · rw [List.map_cons, henums.1]
    · exact hvalues.append henums.2

/-! ### Fields -/

/-- A field that fits behind one with the number `last` into a scope, which is a part of that of a file.
`types` are the names of the types that are not built in. -/
structure FieldSketch.Fits (types : List String) (pool scope : NamePool) (last : Nat) (f : FieldSketch) :
    Prop where
  number : last < f.number
  type : (∃ k ∈ Scalar.all, f.type = k.keyword) ∨ f.type ∈ types
  pool_new : fold f.name ∉ pool.taken
  scope_new : fold f.name ∉ scope.taken
  allowed : f.name ∉ reserved

/-- Fields that fit into their scope one after the other. -/
inductive FieldsFit (types : List String) (pool : NamePool) : Nat → NamePool → List FieldSketch → Prop where
  | nil {last : Nat} {scope : NamePool} : FieldsFit types pool last scope []
  | cons {last : Nat} {scope : NamePool} {f : FieldSketch} {fields : List FieldSketch} :
      f.Fits types pool scope last → FieldsFit types pool f.number (scope.take f.name) fields →
      FieldsFit types pool last scope (f :: fields)

namespace FieldsFit

variable {types : List String} {pool scope : NamePool} {last : Nat} {fields : List FieldSketch}

theorem forall_fits (h : FieldsFit types pool last scope fields) :
    ∀ f ∈ fields, f.Fits types pool scope last := by
  induction h with
  | nil => exact fun f hf => absurd hf List.not_mem_nil
  | cons hf _ ih =>
    refine List.forall_mem_cons.mpr ⟨hf, fun f' hf' => ?_⟩
    have hfit := ih f' hf'
    exact { hfit with
      number := Nat.lt_trans hf.number hfit.number
      scope_new := fun hmem => hfit.scope_new (List.mem_cons_of_mem _ hmem) }

/-- Numbers increase. -/
theorem pairwise_lt (h : FieldsFit types pool last scope fields) :
    (last :: fields.map FieldSketch.number).Pairwise (· < ·) := by
  induction h with
  | nil => exact List.pairwise_singleton _ _
  | cons hf hfields ih =>
    rw [List.map_cons, List.pairwise_cons]
    refine ⟨List.forall_mem_cons.mpr ⟨hf.number, List.forall_mem_map.mpr fun f' hf' => ?_⟩, ih⟩
    exact Nat.lt_trans hf.number (hfields.forall_fits f' hf').number

/-- Names are different, also without case and underscores. -/
theorem nodup_fold (h : FieldsFit types pool last scope fields) :
    (fields.map fun f => fold f.name).Nodup := by
  induction h with
  | nil => exact List.nodup_nil
  | cons hf hfields ih =>
    refine List.nodup_cons.mpr ⟨fun hmem => ?_, ih⟩
    obtain ⟨f', hf', hname⟩ := List.mem_map.mp hmem
    exact (hfields.forall_fits f' hf').scope_new (hname ▸ List.mem_cons_self)

end FieldsFit

theorem sketchType_known (names : List String) : (sketchType r names).Gives fun type =>
    (∃ k ∈ Scalar.all, type = k.keyword) ∨ type ∈ names := by
  refine .bind (.any _) fun builtIn _ => ?_
  split
  · exact .map ((r.choose_gives Scalar.all).imp fun k hk => .inl ⟨k, hk, rfl⟩)
  · exact (r.choose_gives names).imp fun type htype => .inr htype

theorem sketchField_fits (names : List String) (last : Nat) (pool scope : NamePool) :
    (sketchField r names last pool scope).Gives fun x =>
      x.1.Fits names pool scope last ∧ x.2 = scope.take x.1.name := by
  refine .bind (r.between_gives (by decide)) fun step hstep => ?_
  refine .bind (sketchType_known r names) fun type htype => ?_
  have hfresh : (pool.freshIn r .field scope).Gives fun x =>
      (fold x.1 ∉ pool.taken ++ scope.taken ∧ x.1 ∉ reserved) ∧ x.2 = scope.take x.1 :=
    .bind (freshWithin_new r .field _ _) fun _ hname => .pure ⟨hname, rfl⟩
  refine .bind hfresh fun ⟨name, scope'⟩ ⟨⟨hnew, hallowed⟩, hscope⟩ => ?_
  refine .bind (.any _) fun repeated _ => .pure ⟨⟨?_, htype, ?_, ?_, hallowed⟩, hscope⟩
  · exact Nat.lt_add_of_pos_right hstep.1
  · exact fun hmem => hnew (List.mem_append_left _ hmem)
  · exact fun hmem => hnew (List.mem_append_right _ hmem)

/-! ### Messages -/

/-- The field that a member is, if it is one. -/
def MemberSketch.field? : MemberSketch → Option FieldSketch
  | .field f => some f
  | .enumeration _ => none

/-- The enumeration that a member is, if it is one. -/
def MemberSketch.enumeration? : MemberSketch → Option EnumSketch
  | .field _ => none
  | .enumeration e => some e

/-- The fields among some members. -/
def fieldsOf (members : List MemberSketch) : List FieldSketch := members.filterMap MemberSketch.field?

/-- The enumerations among some members. -/
def enumsOf (members : List MemberSketch) : List EnumSketch := members.filterMap MemberSketch.enumeration?

/-- The names that the members of a message put into the scope of the file. -/
def sharedNames (members : List MemberSketch) : List String :=
  (enumsOf members).map EnumSketch.name ++ (enumsOf members).flatMap EnumSketch.values

/-- Fields fit behind each other, and all enumerations are placed, in their order. -/
theorem sketchMembers_fit (names : List String) (pool : NamePool) {kinds : List MemberKind}
    {enums : List EnumSketch} (hcount : kinds.count .enumeration = enums.length) (last : Nat)
    (scope : NamePool) :
    (sketchMembers r names pool kinds enums last scope).Gives fun members =>
      FieldsFit names pool last scope (fieldsOf members) ∧ enumsOf members = enums := by
  induction kinds generalizing enums last scope with
  | nil => exact .pure ⟨.nil, (List.length_eq_zero_iff.mp hcount.symm).symm⟩
  | cons kind kinds ih =>
    cases kind with
    | field =>
      refine .bind (sketchField_fits r names last pool scope) fun ⟨f, scope'⟩ hf => ?_
      obtain ⟨hf, hscope : scope' = scope.take f.name⟩ := hf
      subst hscope
      rw [List.count_cons_of_ne (by decide)] at hcount
      exact .map ((ih hcount f.number _).imp fun members hmembers => ⟨.cons hf hmembers.1, hmembers.2⟩)
    | enumeration =>
      cases enums with
      | nil => exact .none
      | cons e enums =>
        rw [List.count_cons_self, List.length_cons] at hcount
        exact .map ((ih (Nat.succ.inj hcount) last scope).imp fun members hmembers =>
          ⟨hmembers.1, congrArg (e :: ·) hmembers.2⟩)

/-- Members that fit into a message: what they share with the file is handed out before the fields are
named, and those refer to types that the file declares at its top, and to types of the message. -/
structure MessageFits (declared : List String) (pool : NamePool) (members : List MemberSketch)
    (pool' : NamePool) : Prop where
  handsOut : pool.HandsOut (sharedNames members) pool'
  allowed : ∀ e ∈ enumsOf members, e.name ∉ reserved
  fields : FieldsFit (declared ++ (enumsOf members).map EnumSketch.name) pool' 0 {} (fieldsOf members)

theorem sketchMessage_fits (declared : List String) (pool : NamePool) :
    (sketchMessage r declared pool).Gives fun x => MessageFits declared pool x.1 x.2 := by
  refine .bind (.any _) fun nestedCount _ => ?_
  refine .bind (freshTypes_handsOut r nestedCount pool) fun ⟨nested, pool₁⟩ ⟨_, hnested, hallowed⟩ => ?_
  refine .bind (sketchEnums_handsOut r nested pool₁) fun ⟨enums, pool₂⟩ ⟨hnames, hvalues⟩ => ?_
  refine .bind (.any _) fun fieldCount _ => .bind (shuffle_gives r _) fun kinds hkinds => ?_
  have hcount : kinds.count .enumeration = enums.length := by
    rw [hkinds.count_eq, List.count_append, List.count_replicate, List.count_replicate_self,
      ← congrArg List.length hnames, List.length_map]
    exact Nat.zero_add _
  refine .bind (sketchMembers_fit r (declared ++ nested) pool₂ hcount 0 {}) fun members hmembers => ?_
  obtain ⟨hfields, henums⟩ := hmembers
  refine .pure ⟨?_, ?_, ?_⟩
  · rw [sharedNames, henums, hnames]
    exact hnested.append hvalues
  · intro e he
    rw [henums] at he
    exact hallowed e.name (hnames ▸ List.mem_map_of_mem he)
  · rw [henums, hnames]
    exact hfields

/-! ### Files -/

/-- The name of a declaration. -/
def DeclarationSketch.name : DeclarationSketch → String
  | .message name _ => name
  | .enumeration e => e.name

/-- The names that a declaration puts into the scope of the file besides its own. -/
def DeclarationSketch.sharedNames : DeclarationSketch → List String
  | .message _ members => Corpus.sharedNames members
  | .enumeration e => e.values

/-- A declaration that fits into its file. -/
def DeclarationSketch.Fits (declared : List String) (pool pool' : NamePool) : DeclarationSketch → Prop
  | .message _ members => MessageFits declared pool members pool'
  | .enumeration e => pool.HandsOut e.values pool'

/-- Declarations that fit into their file one after the other. -/
inductive DeclarationsFit (declared : List String) : NamePool → List DeclarationSketch → Prop where
  | nil {pool : NamePool} : DeclarationsFit declared pool []
  | cons {pool pool' : NamePool} {d : DeclarationSketch} {sketch : List DeclarationSketch} :
      d.Fits declared pool pool' → DeclarationsFit declared pool' sketch →
      DeclarationsFit declared pool (d :: sketch)

theorem DeclarationSketch.Fits.handsOut {declared : List String} {pool pool' : NamePool}
    {d : DeclarationSketch} (h : d.Fits declared pool pool') : pool.HandsOut d.sharedNames pool' := by
  cases d with
  | message name members => exact MessageFits.handsOut h
  | enumeration e => exact h

namespace DeclarationsFit

variable {declared : List String} {pool : NamePool} {sketch : List DeclarationSketch}

/-- All declarations share the scope of the file. -/
theorem handsOut (h : DeclarationsFit declared pool sketch) :
    ∃ pool', pool.HandsOut (sketch.flatMap DeclarationSketch.sharedNames) pool' := by
  induction h with
  | nil => exact ⟨_, .nil _⟩
  | cons hd _ ih =>
    obtain ⟨pool', hpool'⟩ := ih
    exact ⟨pool', hd.handsOut.append hpool'⟩

/-- Every declaration fits into what was taken when it was drawn. -/
theorem exists_fits (h : DeclarationsFit declared pool sketch) :
    ∀ d ∈ sketch, ∃ pool₁ pool₂, pool.taken ⊆ pool₁.taken ∧ d.Fits declared pool₁ pool₂ := by
  induction h with
  | nil => exact fun d hd => absurd hd List.not_mem_nil
  | cons hd _ ih =>
    refine List.forall_mem_cons.mpr ⟨⟨_, _, List.Subset.refl _, hd⟩, fun d' hd' => ?_⟩
    obtain ⟨pool₁, pool₂, hsub, hfits⟩ := ih d' hd'
    exact ⟨pool₁, pool₂, fun t ht => hsub (hd.handsOut.subset ht), hfits⟩

end DeclarationsFit

theorem sketchDeclarations_fit (declared : List String) (todo : List (DeclarationKind × String))
    (pool : NamePool) : (sketchDeclarations r declared todo pool).Gives fun sketch =>
      sketch.map DeclarationSketch.name = todo.map Prod.snd ∧ DeclarationsFit declared pool sketch := by
  induction todo generalizing pool with
  | nil => exact .pure ⟨rfl, .nil⟩
  | cons d todo ih =>
    obtain ⟨kind, name⟩ := d
    cases kind with
    | enumeration =>
      refine .bind (sketchValues_handsOut r name pool) fun ⟨values, pool'⟩ hvalues => ?_
      exact .map ((ih pool').imp fun sketch hsketch =>
        ⟨congrArg (name :: ·) hsketch.1, .cons hvalues hsketch.2⟩)
    | message =>
      refine .bind (sketchMessage_fits r declared pool) fun ⟨members, pool'⟩ hmembers => ?_
      exact .map ((ih pool').imp fun sketch hsketch =>
        ⟨congrArg (name :: ·) hsketch.1, .cons hmembers hsketch.2⟩)

/-- A file that fits into its scope: the names at its top are handed out first. -/
structure FileFits (sketch : List DeclarationSketch) (pool : NamePool) : Prop where
  handsOut : ({} : NamePool).HandsOut (sketch.map DeclarationSketch.name) pool
  allowed : ∀ d ∈ sketch, d.name ∉ reserved
  declarations : DeclarationsFit (sketch.map DeclarationSketch.name) pool sketch

/-- **A sketch of a file fits into its scopes.** -/
theorem sketchFile_fits : (sketchFile r).Gives fun sketch => ∃ pool, FileFits sketch pool := by
  refine .bind (.any _) fun count _ => .bind (.any _) fun kinds _ => ?_
  refine .bind (freshTypes_handsOut r kinds.length {}) fun ⟨names, pool⟩ ⟨hlength, hnames, hallowed⟩ => ?_
  refine (sketchDeclarations_fit r names (kinds.zip names) pool).imp fun sketch hsketch => ?_
  rw [List.map_snd_zip (Nat.le_of_eq hlength)] at hsketch
  obtain ⟨hsketch, hfit⟩ := hsketch
  subst hsketch
  exact ⟨pool, hnames, fun d hd => hallowed d.name (List.mem_map_of_mem hd), hfit⟩

end MessageIdl.Corpus
