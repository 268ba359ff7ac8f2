import MessageIdl.Corpus.Sketch
import MessageIdl.Proofs.Corpus.Draws
import MessageIdl.Proofs.Schema.Printing

/-!
# Sketches are well formed

* `FieldSketch.tree`, `EnumSketch.tree`, `DeclarationSketch.tree`, `fileOf`: the tree that a sketch
  describes.
* `sketchField_gives`, `sketchMessage_gives`, `sketchDeclarations_gives`: what is drawn is well formed.
* `sketchFile_gives`: a sketch of a file declares something, and its tree is well formed.
-/

namespace MessageIdl.Corpus

open MessageIdl.Schema

/-! ### Trees of sketches -/

/-- The field that a sketch describes. -/
def FieldSketch.tree (f : FieldSketch) : Field :=
  { name := f.name, type := f.type, repeated := f.repeated }

/-- The enumeration that a sketch describes. -/
def EnumSketch.tree (e : EnumSketch) : Enumeration :=
  { name := e.name, values := e.values.map fun v => { name := v } }

/-- The member of a message that a sketch describes. -/
def MemberSketch.tree : MemberSketch → Field ⊕ Enumeration
  | .field f => .inl f.tree
  | .enumeration e => .inr e.tree

/-- The declaration that a sketch describes. -/
def DeclarationSketch.tree : DeclarationSketch → Message ⊕ Enumeration
  | .enumeration e => .inr e.tree
  | .message name members => .inl
      { name
        fields := (members.map MemberSketch.tree).filterMap Sum.getLeft?
        enums := (members.map MemberSketch.tree).filterMap Sum.getRight? }

/-- The file that a sketch describes. -/
def fileOf (sketch : List DeclarationSketch) : SchemaFile where
  messages := (sketch.map DeclarationSketch.tree).filterMap Sum.getLeft?
  enums := (sketch.map DeclarationSketch.tree).filterMap Sum.getRight?

/-! ### Well-formed sketches -/

/-- A member of a message that is well formed. -/
def MemberSketch.WellFormed : MemberSketch → Prop
  | .field f => f.tree.WellFormed
  | .enumeration e => e.tree.WellFormed

/-- A declaration that is well formed. -/
def DeclarationSketch.WellFormed : DeclarationSketch → Prop
  | .enumeration e => e.tree.WellFormed
  | .message name members => isIdentifier name = true ∧ ∀ m ∈ members, m.WellFormed

variable {σ : Type} (r : Stream σ)

/-! ### Enumerations -/

/-- Small letters become capitals, and no other character changes. -/
theorem toUpper_cases (c : Char) : c.toUpper.isAlpha = true ∨ c.toUpper = c := by
  by_cases hlower : 'a'.val ≤ c.val ∧ c.val ≤ 'z'.val
  · left
    have hcapital : c.toUpper = ⟨c.val + ('A'.val - 'a'.val), _⟩ := dif_pos hlower
    -- capitals come 32 places before small letters, and a negative distance wraps around
    have hdistance : ('A'.val - 'a'.val).toNat = 2 ^ 32 - 32 := by decide
    have hlow : 97 ≤ c.val.toNat := UInt32.le_iff_toNat_le.mp hlower.1
    have hhigh : c.val.toNat ≤ 122 := UInt32.le_iff_toNat_le.mp hlower.2
    have hupper : 65 ≤ c.toUpper.val.toNat ∧ c.toUpper.val.toNat ≤ 90 := by
      rw [hcapital, UInt32.toNat_add, hdistance]
      omega
    refine (Bool.or_eq_true _ _).mpr (.inl (decide_eq_true ⟨?_, ?_⟩))
    · exact UInt32.le_iff_toNat_le.mpr hupper.1
    · exact UInt32.le_iff_toNat_le.mpr hupper.2
  · exact .inr (dif_neg hlower)

theorem isNameStart_toUpper {c : Char} (hc : isNameStart c = true) :
    isNameStart c.toUpper = true := by
  rcases toUpper_cases c with h | h
  · rw [isNameStart, h, Bool.true_or, Bool.true_or]
  · rw [h]
    exact hc

theorem isNamePart_toUpper {c : Char} (hc : isNamePart c = true) : isNamePart c.toUpper = true := by
  rcases toUpper_cases c with h | h
  · rw [isNamePart, isNameStart, h, Bool.true_or, Bool.true_or, Bool.true_or]
  · rw [h]
    exact hc

/-- The name that is wished for a value is one. -/
theorem wished_isIdentifier {name : String} (hname : isIdentifier name = true) (k : Nat) :
    isIdentifier (String.ofList (name.toList.map Char.toUpper) ++ "_" ++ toString k) = true := by
  obtain ⟨c, t, hct, hc, ht⟩ := isIdentifier_iff.mp hname
  have hupper : isIdentifier (String.ofList (name.toList.map Char.toUpper)) = true := by
    refine isIdentifier_iff.mpr ⟨c.toUpper, t.map Char.toUpper, ?_, isNameStart_toUpper hc, ?_⟩
    · rw [String.toList_ofList, hct, List.map_cons]
    · exact List.forall_mem_map.mpr fun d hd => isNamePart_toUpper (ht d hd)
  have hunderscore : isIdentifier (String.ofList (name.toList.map Char.toUpper) ++ "_") = true :=
    isIdentifier_append hupper (List.all_eq_true.mp (by decide))
  refine isIdentifier_append hunderscore fun d hd => ?_
  exact isNamePart_of_isDigit ((toString_mem_digitsText k).2 d hd)

theorem sketchValues_gives {name : String} (hname : isIdentifier name = true) (pool : NamePool) :
    (sketchValues r name pool).Gives fun x =>
      EnumSketch.tree { name, values := x.1 } |>.WellFormed := by
  refine .bind (r.between_gives (by decide)) fun count hcount => .pure ?_
  have hwished : ∀ s ∈ (List.range count).map fun k =>
      String.ofList (name.toList.map Char.toUpper) ++ "_" ++ toString k, isIdentifier s = true :=
    List.forall_mem_map.mpr fun k _ => wished_isIdentifier hname k
  obtain ⟨hlength, hall⟩ := claimAll_spec _ pool hwished
  rw [List.length_map, List.length_range] at hlength
  refine ⟨hname, fun hnil => ?_, ?_⟩
  · have hnone : (pool.claimAll _).1 = [] := List.map_eq_nil_iff.mp hnil
    rw [hnone, List.length_nil] at hlength
    omega
  · exact List.forall_mem_map.mpr hall

theorem sketchEnums_gives (names : List String) (hnames : ∀ s ∈ names, isIdentifier s = true)
    (pool : NamePool) :
    (sketchEnums r names pool).Gives fun x => ∀ e ∈ x.1, e.tree.WellFormed := by
  induction names generalizing pool with
  | nil => exact .pure fun e he => absurd he List.not_mem_nil
  | cons name names ih =>
    obtain ⟨hname, hnames⟩ := List.forall_mem_cons.mp hnames
    refine .bind (sketchValues_gives r hname pool) fun ⟨values, pool⟩ hvalues => ?_
    exact .bind (ih hnames pool) fun ⟨enums, pool⟩ henums =>
      .pure (List.forall_mem_cons.mpr ⟨hvalues, henums⟩)

/-! ### Fields and messages -/

/-- A type is a keyword or one of the given names. -/
theorem sketchType_gives {names : List String} (hnames : ∀ s ∈ names, IsTypeWord s) :
    (sketchType r names).Gives fun s => IsTypeName s ∧ s ≠ "repeated" := by
  have hkeyword : ∀ k ∈ Scalar.all, k.keyword ≠ "repeated" := by decide
  refine .bind (.any _) fun builtIn _ => ?_
  split
  · exact .map ((r.choose_gives Scalar.all).imp fun k hk => ⟨.inl ⟨k, hk, rfl⟩, hkeyword k hk⟩)
  · exact (r.choose_gives names).imp fun s hs => (hnames s hs).isTypeName

theorem sketchField_gives {names : List String} (hnames : ∀ s ∈ names, IsTypeWord s) (last : Nat)
    (pool scope : NamePool) :
    (sketchField r names last pool scope).Gives fun x => x.1.tree.WellFormed := by
  refine .bind (.any _) fun step _ => .bind (sketchType_gives r hnames) fun type htype => ?_
  refine .bind (fieldName_gives r pool scope) fun ⟨name, scope⟩ hname => ?_
  exact .bind (.any _) fun repeated _ => .pure ⟨hname, htype.1, fun _ => htype.2⟩

theorem sketchMembers_gives {names : List String} (hnames : ∀ s ∈ names, IsTypeWord s)
    (pool : NamePool) (kinds : List MemberKind) (enums : List EnumSketch)
    (henums : ∀ e ∈ enums, e.tree.WellFormed) (last : Nat) (scope : NamePool) :
    (sketchMembers r names pool kinds enums last scope).Gives fun members =>
      ∀ m ∈ members, m.WellFormed := by
  induction kinds generalizing enums last scope with
  | nil => exact .pure fun m hm => absurd hm List.not_mem_nil
  | cons kind kinds ih =>
    cases kind with
    | field =>
      refine .bind (sketchField_gives r hnames last pool scope) fun ⟨f, scope⟩ hf => ?_
      exact .map ((ih enums henums f.number scope).imp fun members hmembers =>
        List.forall_mem_cons.mpr ⟨hf, hmembers⟩)
    | enumeration =>
      cases enums with
      | nil => exact .none
      | cons e enums =>
        obtain ⟨he, henums⟩ := List.forall_mem_cons.mp henums
        exact .map ((ih enums henums last scope).imp fun members hmembers =>
          List.forall_mem_cons.mpr ⟨he, hmembers⟩)

theorem sketchMessage_gives {declared : List String} (hdeclared : ∀ s ∈ declared, IsTypeWord s)
    (pool : NamePool) :
    (sketchMessage r declared pool).Gives fun x => ∀ m ∈ x.1, m.WellFormed := by
  refine .bind (.any _) fun nestedCount _ => ?_
  refine .bind (freshTypes_gives r nestedCount pool) fun ⟨nested, pool⟩ hnested => ?_
  refine .bind (sketchEnums_gives r nested (fun s hs => (hnested.2 s hs).1) pool)
    fun ⟨enums, pool⟩ henums => ?_
  refine .bind (.any _) fun fieldCount _ => .bind (.any _) fun kinds _ => ?_
  have hnames : ∀ s ∈ declared ++ nested, IsTypeWord s :=
    List.forall_mem_append.mpr ⟨hdeclared, hnested.2⟩
  exact .bind (sketchMembers_gives r hnames pool kinds enums henums 0 {}) fun members hmembers =>
    .pure hmembers

/-! ### Files -/

theorem sketchDeclarations_gives {declared : List String}
    (hdeclared : ∀ s ∈ declared, IsTypeWord s) (todo : List (DeclarationKind × String))
    (htodo : ∀ d ∈ todo, isIdentifier d.2 = true) (pool : NamePool) :
    (sketchDeclarations r declared todo pool).Gives fun sketch =>
      sketch.length = todo.length ∧ ∀ d ∈ sketch, d.WellFormed := by
  induction todo generalizing pool with
  | nil => exact .pure ⟨rfl, fun d hd => absurd hd List.not_mem_nil⟩
  | cons d todo ih =>
    obtain ⟨kind, name⟩ := d
    obtain ⟨hname, hrest⟩ := List.forall_mem_cons.mp htodo
    cases kind with
    | enumeration =>
      refine .bind (sketchValues_gives r hname pool) fun ⟨values, pool⟩ hvalues => ?_
      exact .map ((ih hrest pool).imp fun sketch hsketch =>
        ⟨congrArg Nat.succ hsketch.1, List.forall_mem_cons.mpr ⟨hvalues, hsketch.2⟩⟩)
    | message =>
      refine .bind (sketchMessage_gives r hdeclared pool) fun ⟨members, pool⟩ hmembers => ?_
      exact .map ((ih hrest pool).imp fun sketch hsketch =>
        ⟨congrArg Nat.succ hsketch.1, List.forall_mem_cons.mpr ⟨⟨hname, hmembers⟩, hsketch.2⟩⟩)

/-- **A sketch of a file** declares something, and all of it is well formed. -/
theorem sketchFile_gives :
    (sketchFile r).Gives fun sketch => sketch ≠ [] ∧ ∀ d ∈ sketch, d.WellFormed := by
  refine .bind (r.between_gives (by decide)) fun count hcount => ?_
  refine .bind ((Draw.Gives.any _).times count) fun kinds hkinds => ?_
  refine .bind (freshTypes_gives r kinds.length {}) fun ⟨names, pool⟩ hnames => ?_
  have htodo : ∀ d ∈ kinds.zip names, isIdentifier d.2 = true := fun d hd =>
    (hnames.2 d.2 (List.of_mem_zip hd).2).1
  refine (sketchDeclarations_gives r hnames.2 _ htodo pool).imp fun sketch hsketch => ?_
  refine ⟨fun hnil => ?_, hsketch.2⟩
  have hlength : (kinds.zip names).length = count := by
    rw [List.length_zip, hnames.1, Nat.min_self, hkinds.1]
  rw [hnil, List.length_nil, hlength] at hsketch
  omega

end MessageIdl.Corpus
