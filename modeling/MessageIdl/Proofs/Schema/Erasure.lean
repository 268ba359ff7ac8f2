import Mathlib.Tactic.TFAE
import MessageIdl.Proofs.Schema.Hoisting
import MessageIdl.Proofs.Text.Codes

/-!
# What type definitions keep of a tree

A text of type definitions is taken apart into its declarations again: names hold no blanks, marks or
brackets, every line ends in a semicolon or a bracket, and an empty line stands between two
declarations.

* `Declaration`: what one definition says.
* `SchemaFile.erasure`: the declarations of a tree, with the types that stand for the written ones.
* `SchemaFile.definitions_eq`: the definitions are a text of the erasure.
* `Declaration.text_separates`: a declaration is told from others by its text.
* `SchemaFile.definitions_tfae`: either notation tells the erasure.
-/

namespace MessageIdl.Schema

open MessageIdl.Text (Separates separates_flatMap runs_eq_of_append_eq)

/-! ### Declarations -/

/-- A field as it is defined, with the type that stands for the written one. -/
structure DefinedField where
  name : String
  type : String
  repeated : Bool
deriving DecidableEq

/-- What a definition says: a union of names, or a record of fields. -/
inductive Declaration where
  | union (name : String) (values : List String)
  | record (name : String) (fields : List DefinedField)
deriving DecidableEq

/-- What is kept of a field. -/
def Field.defined (f : Field) : DefinedField := ⟨f.name, mappedType f.type, f.repeated⟩

/-- What is kept of an enumeration. -/
def Enumeration.declaration (e : Enumeration) : Declaration := .union e.name (e.values.map (·.name))

/-- What is kept of a message, the enumerations nested in it apart. -/
def Message.declaration (m : Message) : Declaration := .record m.name (m.fields.map Field.defined)

/-- What is kept of a file, in the order of its definitions. -/
def SchemaFile.erasure (f : SchemaFile) : List Declaration :=
  f.enums.map Enumeration.declaration
    ++ f.messages.flatMap fun m => m.enums.map Enumeration.declaration ++ [m.declaration]

/-- The line of a field. -/
def DefinedField.line (t : Target) (x : DefinedField) : String :=
  "  " ++ x.name ++ ": " ++ (if x.repeated then t.listOf x.type else x.type) ++ ";"

/-- The lines of a declaration. -/
def Declaration.lines (t : Target) : Declaration → List String
  | .union name values =>
      ["export type " ++ name ++ " = " ++ " | ".intercalate (values.map fun v => "'" ++ v ++ "'")
        ++ ";"]
  | .record name [] => ["export type " ++ name ++ " = \x7b\x7d;"]
  | .record name (x :: xs) =>
      ("export type " ++ name ++ " = \x7b") :: (x :: xs).map (DefinedField.line t) ++ ["\x7d;"]

variable {t : Target}

theorem Enumeration.lines_declaration (e : Enumeration) :
    e.declaration.lines t = [e.definition] := by
  simp [Enumeration.declaration, Declaration.lines, Enumeration.definition, Function.comp_def]

theorem Field.line_defined (f : Field) :
    f.defined.line t = "  " ++ f.name ++ ": " ++ f.definedType t ++ ";" := rfl

theorem Message.lines_declaration (m : Message) : m.declaration.lines t = m.definition t := by
  cases hfields : m.fields with
  | nil => simp [Message.declaration, Declaration.lines, Message.definition, hfields]
  | cons x xs =>
    simp [Message.declaration, Declaration.lines, Message.definition, hfields, Field.line_defined]

theorem SchemaFile.definitionBlocks_eq (f : SchemaFile) :
    f.definitionBlocks t = f.erasure.map (Declaration.lines t) := by
  simp [SchemaFile.definitionBlocks, SchemaFile.erasure, List.map_flatMap, Function.comp_def,
    Enumeration.lines_declaration, Message.lines_declaration]

/-- The block of lines in front of the definitions of a file without a path, if there is one. -/
def Target.headerBlocks : Target → List (List String)
  | .flow => [["// @flow"]]
  | .typescript => []

/-- The definitions of a file without a path are a text of its erasure. -/
theorem SchemaFile.definitions_eq {f : SchemaFile} (hpath : f.path = none) :
    f.definitions t = joinLines (spaced (t.headerBlocks ++ f.erasure.map (Declaration.lines t))) := by
  have hheader : f.definitionHeader t = t.header := by
    rw [SchemaFile.definitionHeader, hpath, List.append_nil]
  rw [SchemaFile.definitions, hheader, f.definitionBlocks_eq]
  cases t <;> rfl

/-! ### Blocks of lines -/

/-- Of blocks that end in a line with some characters the last empty line is not kept, and no other. -/
theorem kept_spaced {bs : List (List String)} (h : ∀ b ∈ bs, Ended b) (hne : bs ≠ []) :
    kept (spaced bs) ≠ [] ∧ kept (spaced bs) ++ [""] = spaced bs := by
  obtain ⟨front, b, rfl⟩ := (List.eq_nil_or_concat bs).resolve_left hne
  rw [List.concat_eq_append] at h ⊢
  have hb : Ended b := h b (List.mem_append_right front List.mem_cons_self)
  have hspaced : spaced (front ++ [b]) = spaced front ++ (b ++ [""]) := by
    rw [spaced_append]
    exact congrArg (spaced front ++ ·) (List.append_nil _)
  have hkept : kept (b ++ [""]) ≠ [] := by
    rw [kept_block hb]
    obtain ⟨ls, l, rfl, -⟩ := hb
    exact List.append_ne_nil_of_right_ne_nil ls (List.cons_ne_nil l [])
  rw [hspaced, kept_append hkept]
  refine ⟨List.append_ne_nil_of_right_ne_nil _ hkept, ?_⟩
  rw [kept_block hb, List.append_assoc]

theorem linesText_ne_nil {ls : List String} (h : ls ≠ []) : linesText ls ≠ [] := by
  obtain ⟨l, ls, rfl⟩ := List.exists_cons_of_ne_nil h
  rw [linesText_cons]
  exact List.append_ne_nil_of_left_ne_nil (List.append_ne_nil_of_right_ne_nil _ (by decide)) _

/-- Joining such blocks loses nothing. -/
theorem linesText_spaced_of_joinLines_eq {bs cs : List (List String)} (hbs : ∀ b ∈ bs, Ended b)
    (hcs : ∀ c ∈ cs, Ended c) (h : joinLines (spaced bs) = joinLines (spaced cs)) :
    linesText (spaced bs) = linesText (spaced cs) := by
  have hkept : linesText (kept (spaced bs)) = linesText (kept (spaced cs)) := by
    rw [← joinLines_toList, ← joinLines_toList, h]
  have hnil {xs : List (List String)} (hxs : ∀ x ∈ xs, Ended x)
      (hempty : linesText (kept (spaced xs)) = []) : xs = [] := by
    by_contra hne
    exact linesText_ne_nil (kept_spaced hxs hne).1 hempty
  have hnone : linesText (kept (spaced [])) = [] := rfl
  by_cases hb : bs = []
  · rw [hb, hnone] at hkept
    rw [hb, hnil hcs hkept.symm]
  · have hc : cs ≠ [] := by
      rintro rfl
      exact hb (hnil hbs (hkept.trans hnone))
    rw [← (kept_spaced hbs hb).2, ← (kept_spaced hcs hc).2, linesText_append, linesText_append, hkept]

/-! ### Names -/

/-- Names, of types as of fields. -/
structure DefinedField.WellFormed (x : DefinedField) : Prop where
  name : isIdentifier x.name = true
  type : isIdentifier x.type = true

/-- Whether all names in a declaration are identifiers. -/
inductive Declaration.WellFormed : Declaration → Prop
  | union {name : String} {values : List String} (hname : isIdentifier name = true)
      (hvalues : ∀ v ∈ values, isIdentifier v = true) : WellFormed (.union name values)
  | record {name : String} {fields : List DefinedField} (hname : isIdentifier name = true)
      (hfields : ∀ x ∈ fields, x.WellFormed) : WellFormed (.record name fields)

theorem isIdentifier_mappedType {s : String} (hs : isIdentifier s = true) :
    isIdentifier (mappedType s) = true := by
  have hmapped (k : Scalar) : isIdentifier k.mapped = true := by
    cases k <;> decide
  rw [mappedType]
  cases Scalar.ofKeyword? s with
  | none => exact hs
  | some k => exact hmapped k

theorem Enumeration.WellFormed.declaration {e : Enumeration} (h : e.WellFormed) :
    e.declaration.WellFormed := by
  refine .union h.name fun v hv => ?_
  obtain ⟨v', hv', rfl⟩ := List.mem_map.mp hv
  exact h.values v' hv'

theorem Message.WellFormed.declaration {m : Message} (h : m.WellFormed) :
    m.declaration.WellFormed := by
  refine .record h.name fun x hx => ?_
  obtain ⟨f, hf, rfl⟩ := List.mem_map.mp hx
  exact ⟨(h.fields f hf).name, isIdentifier_mappedType (h.fields f hf).type.isIdentifier⟩

theorem SchemaFile.WellFormed.erasure {f : SchemaFile} (h : f.WellFormed) :
    ∀ d ∈ f.erasure, d.WellFormed := by
  have henums {es : List Enumeration} (hes : ∀ e ∈ es, e.WellFormed) :
      ∀ d ∈ es.map Enumeration.declaration, d.WellFormed := by
    intro d hd
    obtain ⟨e, he, rfl⟩ := List.mem_map.mp hd
    exact (hes e he).declaration
  intro d hd
  rcases List.mem_append.mp hd with hd | hd
  · exact henums h.enums d hd
  · obtain ⟨m, hm, hd⟩ := List.mem_flatMap.mp hd
    rcases List.mem_append.mp hd with hd | hd
    · exact henums (h.messages m hm).enums d hd
    · rw [List.mem_singleton.mp hd]
      exact (h.messages m hm).declaration

/-- A name ends where no character of a name stands. -/
theorem name_eq_of_append_eq {a b : String} {c d : Char} {r s : List Char}
    (ha : isIdentifier a = true) (hb : isIdentifier b = true) (hc : isNamePart c = false)
    (hd : isNamePart d = false) (h : a.toList ++ c :: r = b.toList ++ d :: s) :
    a = b ∧ c = d ∧ r = s := by
  obtain ⟨hab, hrs⟩ := runs_eq_of_append_eq (isNamePart_of_mem ha) (isNamePart_of_mem hb)
    (by simpa using hc) (by simpa using hd) h
  obtain ⟨hcd, hrs⟩ := List.cons.inj hrs
  exact ⟨String.toList_injective hab, hcd, hrs⟩

/-! ### Texts of declarations -/

/-- The characters of the lines of a declaration and of the empty line behind them. -/
def Declaration.text (t : Target) (d : Declaration) : List Char := linesText (d.lines t) ++ ['\n']

theorem linesText_spaced (ds : List Declaration) :
    linesText (spaced (ds.map (Declaration.lines t))) = ds.flatMap (Declaration.text t) := by
  induction ds with
  | nil => rfl
  | cons d ds ih =>
    rw [List.flatMap_cons, ← ih]
    show linesText ((d.lines t ++ [""]) ++ spaced (ds.map (Declaration.lines t))) = _
    rw [linesText_append, linesText_append]
    rfl

/-- A value of a union between its marks. -/
def valueMark (v : String) : List Char := '\'' :: (v.toList ++ ['\''])

/-- The characters of the values of a union. -/
def unionText : List String → List Char
  | [] => []
  | v :: vs => valueMark v ++ vs.flatMap fun w => ' ' :: '|' :: ' ' :: valueMark w

theorem toList_values (values : List String) :
    (" | ".intercalate (values.map fun v => "'" ++ v ++ "'")).toList = unionText values := by
  have hvalue (v : String) : ("'" ++ v ++ "'").toList = valueMark v := by
    rw [String.toList_append, String.toList_append, List.append_assoc]
    rfl
  rw [String.toList_intercalate, List.map_map]
  cases values with
  | nil => rfl
  | cons v vs =>
    induction vs generalizing v with
    | nil => simp [unionText, hvalue]
    | cons w vs ih =>
      rw [List.map_cons, List.map_cons, List.intercalate_cons_cons, ← List.map_cons, ih w]
      simp [unionText, hvalue]

/-- The type of a field and the semicolon behind it. -/
def DefinedField.typeText (t : Target) (x : DefinedField) : List Char :=
  (if x.repeated then t.listOf x.type else x.type).toList ++ [';']

/-- The characters of the line of a field. -/
def DefinedField.text (t : Target) (x : DefinedField) : List Char :=
  ' ' :: ' ' :: (x.name.toList ++ ':' :: ' ' :: (x.typeText t ++ ['\n']))

/-- The name that a declaration declares. -/
def Declaration.name : Declaration → String
  | .union name _ => name
  | .record name _ => name

/-- What stands behind the equals sign of a declaration. -/
def Declaration.body (t : Target) : Declaration → List Char
  | .union _ values => unionText values ++ [';', '\n', '\n']
  | .record _ [] => ['\x7b', '\x7d', ';', '\n', '\n']
  | .record _ (x :: xs) =>
      '\x7b' :: '\n' :: ((x :: xs).flatMap (DefinedField.text t) ++ ['\x7d', ';', '\n', '\n'])

theorem DefinedField.linesText_map (xs : List DefinedField) :
    linesText (xs.map (DefinedField.line t)) = xs.flatMap (DefinedField.text t) := by
  have hline (x : DefinedField) : (x.line t).toList ++ ['\n'] = x.text t := by
    simp [DefinedField.line, DefinedField.text, DefinedField.typeText]
  rw [linesText, List.flatMap_map]
  simp only [hline]

/-- The line with which a declaration begins. -/
theorem toList_head (name rest : String) :
    ("export type " ++ name ++ rest).toList = declaring ++ (name.toList ++ rest.toList) := by
  rw [String.toList_append, String.toList_append, List.append_assoc]
  rfl

theorem Declaration.text_eq (d : Declaration) :
    d.text t = declaring ++ (d.name.toList ++ ' ' :: '=' :: ' ' :: d.body t) := by
  cases d with
  | union name values =>
    have hline : (Declaration.union name values).lines t = ["export type " ++ name
        ++ (" = " ++ " | ".intercalate (values.map fun v => "'" ++ v ++ "'") ++ ";")] := by
      simp only [Declaration.lines, String.append_assoc]
    rw [Declaration.text, hline, linesText_cons, toList_head, String.toList_append,
      String.toList_append, toList_values]
    simp [linesText, Declaration.name, Declaration.body]
  | record name fields =>
    cases fields with
    | nil =>
      rw [Declaration.text, Declaration.lines, linesText_cons, toList_head]
      simp [linesText, Declaration.name, Declaration.body]
    | cons x xs =>
      rw [Declaration.text, Declaration.lines, List.cons_append, linesText_cons, linesText_append,
        DefinedField.linesText_map, toList_head]
      simp [linesText, Declaration.name, Declaration.body]

/-! ### Taking texts apart -/

theorem valueMark_separates {v w : String} (hv : isIdentifier v = true)
    (hw : isIdentifier w = true) : Separates valueMark v w := by
  intro r s h
  simp only [valueMark, List.cons_append, List.append_assoc, List.cons.injEq, true_and,
    List.nil_append] at h
  obtain ⟨hvw, -, hrs⟩ := name_eq_of_append_eq hv hw (by decide) (by decide) h
  exact ⟨hvw, hrs⟩

/-- The values of a union end at the semicolon. -/
theorem union_eq_of_append_eq {vs ws : List String} {r s : List Char}
    (hvs : ∀ v ∈ vs, isIdentifier v = true) (hws : ∀ w ∈ ws, isIdentifier w = true)
    (h : unionText vs ++ ';' :: r = unionText ws ++ ';' :: s) : vs = ws ∧ r = s := by
  match vs, ws with
  | [], [] => exact ⟨rfl, (List.cons.inj h).2⟩
  | [], w :: ws => exact absurd (List.cons.inj h).1 (by decide)
  | v :: vs, [] => exact absurd (List.cons.inj h).1 (by decide)
  | v :: vs, w :: ws =>
    rw [List.forall_mem_cons] at hvs hws
    rw [unionText, unionText, List.append_assoc, List.append_assoc] at h
    obtain ⟨hfirst, hbehind⟩ := valueMark_separates hvs.1 hws.1 _ _ h
    obtain ⟨hlist, hend⟩ := separates_flatMap (fun t => t.head? = some ';')
      (fun x t => by simp) rfl rfl (fun x hx y hy r s hxy => by
        simp only [List.cons_append, List.cons.injEq, true_and] at hxy
        exact valueMark_separates (hvs.2 x hx) (hws.2 y hy) r s hxy) hbehind
    exact ⟨by rw [hfirst, hlist], (List.cons.inj hend).2⟩

namespace DefinedField

variable {x y : DefinedField}

/-- The word with which the type of a field begins. -/
def firstWord : Target → DefinedField → String
  | .flow, x => if x.repeated then "Array" else x.type
  | .typescript, x => x.type

/-- The mark behind this word. -/
def markBehind : Target → Bool → Char
  | _, false => ';'
  | .flow, true => '<'
  | .typescript, true => '['

/-- What stands behind the mark. -/
def behindMark : Target → DefinedField → List Char
  | .flow, x => if x.repeated then x.type.toList ++ ['>', ';'] else []
  | .typescript, x => if x.repeated then [']', ';'] else []

theorem typeText_eq (x : DefinedField) :
    x.typeText t = (firstWord t x).toList ++ markBehind t x.repeated :: behindMark t x := by
  cases t <;> cases hx : x.repeated <;>
    simp [typeText, Target.listOf, firstWord, markBehind, behindMark, hx]

theorem WellFormed.isIdentifier_firstWord (hx : x.WellFormed) :
    isIdentifier (firstWord t x) = true := by
  have harray : isIdentifier "Array" = true := by decide
  cases t with
  | flow =>
    rw [firstWord]
    split
    · exact harray
    · exact hx.type
  | typescript => exact hx.type

/-- Either notation tells lists of a type from the type. -/
theorem type_eq_of_append_eq (hx : x.WellFormed) (hy : y.WellFormed) {r s : List Char}
    (h : x.typeText t ++ r = y.typeText t ++ s) :
    x.type = y.type ∧ x.repeated = y.repeated ∧ r = s := by
  have hmark : ∀ repeated, isNamePart (markBehind t repeated) = false := by
    cases t <;> decide
  have hrepeated : ∀ a b, markBehind t a = markBehind t b → a = b := by
    cases t <;> decide
  rw [typeText_eq, typeText_eq, List.append_assoc, List.append_assoc, List.cons_append,
    List.cons_append] at h
  obtain ⟨hword, hsame, hbehind⟩ := name_eq_of_append_eq hx.isIdentifier_firstWord
    hy.isIdentifier_firstWord (hmark _) (hmark _) h
  have hxy := hrepeated _ _ hsame
  suffices hrest : x.type = y.type ∧ r = s from ⟨hrest.1, hxy, hrest.2⟩
  cases t with
  | typescript =>
    rw [behindMark, behindMark, hxy] at hbehind
    exact ⟨hword, List.append_cancel_left hbehind⟩
  | flow =>
    rw [firstWord, firstWord, hxy] at hword
    rw [behindMark, behindMark, hxy] at hbehind
    cases hy' : y.repeated with
    | false =>
      rw [hy'] at hword hbehind
      exact ⟨hword, hbehind⟩
    | true =>
      rw [hy', if_pos rfl, if_pos rfl, List.append_assoc, List.append_assoc] at hbehind
      obtain ⟨htype, -, hrest⟩ := name_eq_of_append_eq hx.type hy.type (by decide) (by decide)
        hbehind
      exact ⟨htype, (List.cons.inj hrest).2⟩

theorem text_separates (hx : x.WellFormed) (hy : y.WellFormed) : Separates (text t) x y := by
  intro r s h
  simp only [text, List.cons_append, List.append_assoc, List.cons.injEq, true_and] at h
  obtain ⟨hname, -, hbehind⟩ := name_eq_of_append_eq hx.name hy.name (by decide) (by decide) h
  obtain ⟨htype, hrepeated, hrest⟩ := type_eq_of_append_eq hx hy (List.cons.inj hbehind).2
  obtain ⟨nx, tx, rx⟩ := x
  obtain ⟨ny, ty, ry⟩ := y
  exact ⟨by rw [DefinedField.mk.injEq]; exact ⟨hname, htype, hrepeated⟩, (List.cons.inj hrest).2⟩

end DefinedField

/-- The fields of a record end at the bracket. -/
theorem fields_eq_of_append_eq {xs ys : List DefinedField} {r s : List Char}
    (hxs : ∀ x ∈ xs, x.WellFormed) (hys : ∀ y ∈ ys, y.WellFormed)
    (h : xs.flatMap (DefinedField.text t) ++ '\x7d' :: r =
      ys.flatMap (DefinedField.text t) ++ '\x7d' :: s) : xs = ys ∧ r = s := by
  obtain ⟨hlist, hend⟩ := separates_flatMap (fun t => t.head? = some '\x7d')
    (fun x t => by simp [DefinedField.text]) rfl rfl
    (fun x hx y hy => DefinedField.text_separates (hxs x hx) (hys y hy)) h
  exact ⟨hlist, (List.cons.inj hend).2⟩

namespace Declaration

theorem head?_union_body (name : String) (values : List String) (r : List Char) :
    ((union name values).body t ++ r).head? ≠ some '\x7b' := by
  cases values <;> simp [body, unionText, valueMark]

theorem head?_record_body (name : String) (fields : List DefinedField) (r : List Char) :
    ((record name fields).body t ++ r).head? = some '\x7b' := by
  cases fields <;> rfl

theorem union_body_eq {name name' : String} {vs ws : List String} {r s : List Char}
    (hvs : ∀ v ∈ vs, isIdentifier v = true) (hws : ∀ w ∈ ws, isIdentifier w = true)
    (h : (union name vs).body t ++ r = (union name' ws).body t ++ s) : vs = ws ∧ r = s := by
  rw [body, body, List.append_assoc, List.append_assoc] at h
  obtain ⟨hvalues, hrest⟩ := union_eq_of_append_eq hvs hws h
  have hbehind : ['\n', '\n'] ++ r = ['\n', '\n'] ++ s := hrest
  exact ⟨hvalues, List.append_cancel_left hbehind⟩

/-- A record without fields is told from the others by the bracket on its line. -/
theorem record_body_eq {name name' : String} {xs ys : List DefinedField} {r s : List Char}
    (hxs : ∀ x ∈ xs, x.WellFormed) (hys : ∀ y ∈ ys, y.WellFormed)
    (h : (record name xs).body t ++ r = (record name' ys).body t ++ s) : xs = ys ∧ r = s := by
  match xs, ys with
  | [], [] => exact ⟨rfl, List.append_cancel_left h⟩
  | [], y :: ys => exact absurd (List.cons.inj (List.cons.inj h).2).1 (by decide)
  | x :: xs, [] => exact absurd (List.cons.inj (List.cons.inj h).2).1 (by decide)
  | x :: xs, y :: ys =>
    simp only [body, List.cons_append, List.append_assoc, List.cons.injEq, true_and] at h
    obtain ⟨hfields, hrest⟩ := fields_eq_of_append_eq hxs hys h
    have hbehind : [';', '\n', '\n'] ++ r = [';', '\n', '\n'] ++ s := hrest
    exact ⟨hfields, List.append_cancel_left hbehind⟩

/-- What stands behind the equals sign tells the declaration of a name and where it ends. -/
theorem eq_of_body_append_eq {d e : Declaration} (hd : d.WellFormed) (he : e.WellFormed)
    (hname : d.name = e.name) {r s : List Char} (h : d.body t ++ r = e.body t ++ s) :
    d = e ∧ r = s := by
  cases hd with
  | @union name values _ hvalues =>
    cases he with
    | @union name' values' _ hvalues' =>
      obtain rfl : name = name' := hname
      obtain ⟨rfl, hrest⟩ := union_body_eq hvalues hvalues' h
      exact ⟨rfl, hrest⟩
    | @record name' fields' _ _ =>
      exact absurd (h ▸ head?_record_body name' fields' s) (head?_union_body name values r)
  | @record name fields _ hfields =>
    cases he with
    | @union name' values' _ _ =>
      exact absurd (h ▸ head?_record_body name fields r) (head?_union_body name' values' s)
    | @record name' fields' _ hfields' =>
      obtain rfl : name = name' := hname
      obtain ⟨rfl, hrest⟩ := record_body_eq hfields hfields' h
      exact ⟨rfl, hrest⟩

theorem WellFormed.isIdentifier_name {d : Declaration} (h : d.WellFormed) :
    isIdentifier d.name = true := by
  cases h <;> assumption

/-- **A declaration is told by its text**, and so is what stands behind it. -/
theorem text_separates {d e : Declaration} (hd : d.WellFormed) (he : e.WellFormed) :
    Separates (text t) d e := by
  intro r s h
  rw [d.text_eq, e.text_eq, List.append_assoc, List.append_assoc, List.append_assoc,
    List.append_assoc, List.cons_append, List.cons_append] at h
  obtain ⟨hname, -, hbehind⟩ := name_eq_of_append_eq hd.isIdentifier_name he.isIdentifier_name
    (by decide) (by decide) (List.append_cancel_left h)
  have hbody : ['=', ' '] ++ (d.body t ++ r) = ['=', ' '] ++ (e.body t ++ s) := hbehind
  exact eq_of_body_append_eq hd he hname (List.append_cancel_left hbody)

theorem text_ne_nil (d : Declaration) (r : List Char) : d.text t ++ r ≠ [] := by
  rw [text]
  simp

/-- The last line of a declaration ends in a semicolon. -/
theorem ended_lines (d : Declaration) : Ended (d.lines t) := by
  match d with
  | .union name values => exact ⟨[], _, rfl, by simp [String.isEmpty_eq_false_iff]⟩
  | .record name [] => exact ⟨[], _, rfl, by simp [String.isEmpty_eq_false_iff]⟩
  | .record name (x :: xs) => exact ⟨_, _, rfl, by decide⟩

end Declaration

/-! ### Definitions tell the erasure -/

variable {f g : SchemaFile}

/-- In either notation, definitions are equal if and only if they keep the same of their trees. -/
theorem SchemaFile.definitions_eq_iff (hf : f.WellFormed) (hg : g.WellFormed)
    (hfpath : f.path = none) (hgpath : g.path = none) :
    f.definitions t = g.definitions t ↔ f.erasure = g.erasure := by
  rw [SchemaFile.definitions_eq hfpath, SchemaFile.definitions_eq hgpath]
  constructor
  · intro h
    have hended (ds : List Declaration) :
        ∀ b ∈ t.headerBlocks ++ ds.map (Declaration.lines t), Ended b := by
      intro b hb
      rcases List.mem_append.mp hb with hb | hb
      · cases t with
        | flow => exact ⟨[], "// @flow", List.mem_singleton.mp hb, by decide⟩
        | typescript => cases hb
      · obtain ⟨d, -, rfl⟩ := List.mem_map.mp hb
        exact d.ended_lines
    have hlines := linesText_spaced_of_joinLines_eq (hended f.erasure) (hended g.erasure) h
    rw [spaced_append, spaced_append, linesText_append, linesText_append, linesText_spaced,
      linesText_spaced] at hlines
    have htexts : f.erasure.flatMap (Declaration.text t) ++ [] =
        g.erasure.flatMap (Declaration.text t) ++ [] := by
      rw [List.append_cancel_left hlines]
    exact (separates_flatMap (· = []) Declaration.text_ne_nil rfl rfl
      (fun d hd e he => Declaration.text_separates (hf.erasure d hd) (hg.erasure e he)) htexts).1
  · intro h
    rw [h]

/-- **Definitions lose what the mapping of types drops and nothing else.**  For two trees that were
parsed it is the same to have equal definitions in either notation and to have equal erasures. -/
theorem SchemaFile.definitions_tfae {file file' src src' : String} (hf : parse file src = .ok f)
    (hg : parse file' src' = .ok g) :
    [f.definitions .typescript = g.definitions .typescript,
      f.definitions .flow = g.definitions .flow, f.erasure = g.erasure].TFAE := by
  obtain ⟨hfpath, hftext⟩ := mem_fileText_of_parse hf
  obtain ⟨hgpath, hgtext⟩ := mem_fileText_of_parse hg
  have hiff (t : Target) : f.definitions t = g.definitions t ↔ f.erasure = g.erasure :=
    SchemaFile.definitions_eq_iff (wellFormed_of_fileText hftext) (wellFormed_of_fileText hgtext)
      hfpath hgpath
  tfae_have 1 ↔ 3 := hiff .typescript
  tfae_have 2 ↔ 3 := hiff .flow
  tfae_finish

/-- What is kept does not depend on spans. -/
theorem erasure_bare (f : SchemaFile) : f.bare.erasure = f.erasure := by
  have henums (es : List Enumeration) :
      (es.map Enumeration.bare).map Enumeration.declaration = es.map Enumeration.declaration := by
    rw [List.map_map]
    exact List.map_congr_left fun e _ => congrArg (Declaration.union e.name) List.map_map
  have hmessage (m : Message) : m.bare.declaration = m.declaration :=
    congrArg (Declaration.record m.name) List.map_map
  show (f.enums.map Enumeration.bare).map Enumeration.declaration
    ++ (f.messages.map Message.bare).flatMap (fun m =>
      m.enums.map Enumeration.declaration ++ [m.declaration]) = _
  rw [henums, List.flatMap_map, SchemaFile.erasure]
  refine congrArg (_ ++ ·) (List.flatMap_congr fun m _ => ?_)
  rw [hmessage, ← henums m.enums]
  rfl

/-- A message with one field. -/
def pointOf (type : String) : SchemaFile where
  messages := [{ name := "Point", fields := [{ name := "x", type := type }] }]

theorem exists_parse_point {type : String} (htype : IsTypeName type) (hne : type ≠ "repeated") :
    ∃ f, parse memoryName (pointOf type).format = .ok f ∧ f.Same (pointOf type) := by
  have hmessage : isIdentifier "Point" = true := by decide
  have hname : isIdentifier "x" = true := by decide
  have hwell : (pointOf type).WellFormed := by
    refine ⟨fun m hm => ?_, fun e he => absurd he List.not_mem_nil⟩
    rw [List.mem_singleton.mp hm]
    refine ⟨hmessage, fun x hx => ?_, fun e he => absurd he List.not_mem_nil⟩
    rw [List.mem_singleton.mp hx]
    exact ⟨hname, htype, fun _ => hne⟩
  exact parse_of_mem_fileText memoryName (format_mem_fileText hwell) rfl

/-- Fields of type `int32` and of type `float` are both defined as numbers. -/
theorem definitions_tfae_point : ∃ f g,
    parse memoryName (pointOf "int32").format = .ok f ∧
      parse memoryName (pointOf "float").format = .ok g ∧ ¬ f.Same g ∧
        f.definitions .typescript = g.definitions .typescript ∧
          f.definitions .flow = g.definitions .flow := by
  obtain ⟨f, hf, hfsame⟩ : ∃ f, parse memoryName (pointOf "int32").format = .ok f ∧ _ :=
    exists_parse_point (.inl ⟨.int32, by decide, rfl⟩) (by decide)
  obtain ⟨g, hg, hgsame⟩ : ∃ g, parse memoryName (pointOf "float").format = .ok g ∧ _ :=
    exists_parse_point (.inl ⟨.float, by decide, rfl⟩) (by decide)
  have herasure : f.erasure = g.erasure := by
    rw [← erasure_bare f, ← erasure_bare g, show f.bare = _ from hfsame,
      show g.bare = _ from hgsame]
    decide
  have htfae := SchemaFile.definitions_tfae hf hg
  refine ⟨f, g, hf, hg, ?_, (htfae.out 0 2).mpr herasure, (htfae.out 1 2).mpr herasure⟩
  rw [SchemaFile.Same, show f.bare = _ from hfsame, show g.bare = _ from hgsame]
  decide

end MessageIdl.Schema
