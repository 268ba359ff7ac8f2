import MessageIdl.Proofs.Schema.Printing
import MessageIdl.Schema.Definitions

/-!
# The names that type definitions declare

An enumeration nested in a message is defined next to the message, under its plain name.  So names from
the bodies of all messages meet in one text.

* `declaredNames`: the names that a text declares, line by line.
* `SchemaFile.definedNames`: the names that a tree gives to its definitions.
* `declaredNames_definitions`: the definitions of a well-formed tree declare these names, in this order.
* `SchemaFile.Scoped`: names are distinct at the top level and inside each message.
* `declaredNames_nodup_iff`: the names of such a tree are distinct if and only if no two messages nest
  enumerations of one name.
-/

namespace MessageIdl.Schema

/-! ### Declared names -/

/-- The words with which a line declares a type. -/
def declaring : List Char := "export type ".toList

/-- The name that a line declares: it stands between these words and the next blank. -/
def declaredName? (line : List Char) : Option String :=
  (declaring.isPrefixOf? line).map fun rest => String.ofList (rest.takeWhile (· ≠ ' '))

/-- The names that a text declares, line by line. -/
def declaredNames (text : String) : List String :=
  (text.toList.splitOn '\n').filterMap declaredName?

/-- The names that lines declare. -/
def declaredByLines (ls : List String) : List String := ls.filterMap fun l => declaredName? l.toList

theorem declaredByLines_append (a b : List String) :
    declaredByLines (a ++ b) = declaredByLines a ++ declaredByLines b := List.filterMap_append

theorem declaredByLines_cons {l name : String} (h : declaredName? l.toList = some name)
    (ls : List String) : declaredByLines (l :: ls) = name :: declaredByLines ls :=
  List.filterMap_cons_some h

theorem declaredByLines_cons_none {l : String} (h : declaredName? l.toList = none)
    (ls : List String) : declaredByLines (l :: ls) = declaredByLines ls :=
  List.filterMap_cons_none h

/-- A string without line feeds. -/
def OneLine (s : String) : Prop := '\n' ∉ s.toList

instance (s : String) : Decidable (OneLine s) := inferInstanceAs (Decidable ('\n' ∉ s.toList))

theorem OneLine.append {a b : String} (ha : OneLine a) (hb : OneLine b) : OneLine (a ++ b) := by
  rw [OneLine, String.toList_append, List.mem_append]
  exact not_or.mpr ⟨ha, hb⟩

theorem OneLine.intercalate {sep : String} (hsep : OneLine sep) {parts : List String}
    (hparts : ∀ s ∈ parts, OneLine s) : OneLine (sep.intercalate parts) := by
  rw [OneLine, String.toList_intercalate]
  induction parts with
  | nil => exact List.not_mem_nil
  | cons s parts ih =>
    have hs := hparts s List.mem_cons_self
    cases parts with
    | nil =>
      rw [List.map_cons, List.map_nil, List.intercalate_singleton]
      exact hs
    | cons s' parts =>
      have htail := ih fun x hx => hparts x (List.mem_cons_of_mem s hx)
      rw [List.map_cons, List.map_cons, List.intercalate_cons_cons, List.append_assoc,
        List.mem_append, List.mem_append]
      exact not_or.mpr ⟨hs, not_or.mpr ⟨hsep, htail⟩⟩

/-- A name holds characters of names only. -/
theorem not_mem_identifier {s : String} (hs : isIdentifier s = true) {c : Char}
    (hc : isNamePart c = false) : c ∉ s.toList := by
  intro hmem
  rw [isNamePart_of_mem hs c hmem] at hc
  cases hc

theorem oneLine_identifier {s : String} (hs : isIdentifier s = true) : OneLine s :=
  not_mem_identifier hs (by decide)

/-- A line with the declaring words, a name and a blank declares the name. -/
theorem declaredName_of_words {name : String} (hname : isIdentifier name = true)
    (rest : List Char) : declaredName? (declaring ++ (name.toList ++ ' ' :: rest)) = some name := by
  have hall : ∀ c ∈ name.toList, decide (c ≠ ' ') = true := fun c hc =>
    decide_eq_true fun h => not_mem_identifier hname (by decide) (h ▸ hc)
  have htake : (name.toList ++ ' ' :: rest).takeWhile (· ≠ ' ') = name.toList := by
    rw [List.takeWhile_append_of_pos hall, List.takeWhile_cons_of_neg (by decide), List.append_nil]
  rw [declaredName?, List.isPrefixOf?_eq_some_iff_append_eq.mpr rfl, Option.map_some, htake,
    String.ofList_toList]

/-- Lines that are joined declare what they declare one by one. -/
theorem declared_linesText {ls : List String} (h : ∀ l ∈ ls, OneLine l) :
    ((linesText ls).splitOn '\n').filterMap declaredName? = declaredByLines ls := by
  induction ls with
  | nil => rfl
  | cons l ls ih =>
    rw [linesText_cons, List.append_assoc, List.singleton_append,
      List.splitOn_append_cons_self_of_not_mem (h l List.mem_cons_self), List.filterMap_cons,
      ih fun l' hl' => h l' (List.mem_cons_of_mem l hl')]
    rfl

/-- Empty lines at the front declare nothing. -/
theorem declared_dropWhile (ls : List String) :
    declaredByLines (ls.dropWhile (·.isEmpty)) = declaredByLines ls := by
  induction ls with
  | nil => rfl
  | cons l ls ih =>
    by_cases hl : l.isEmpty = true
    · have hnone : declaredName? l.toList = none := by
        rw [String.isEmpty_iff.mp hl]
        rfl
      rw [List.dropWhile_cons_of_pos hl, ih, declaredByLines_cons_none hnone]
    · rw [List.dropWhile_cons_of_neg hl]

/-- Nor do those at the end. -/
theorem declared_kept (ls : List String) : declaredByLines (kept ls) = declaredByLines ls := by
  have h := declared_dropWhile ls.reverse
  rw [declaredByLines, declaredByLines, List.filterMap_reverse] at h
  rw [kept, declaredByLines, List.filterMap_reverse, h, List.reverse_reverse, declaredByLines]

theorem mem_of_mem_kept {l : String} {ls : List String} (h : l ∈ kept ls) : l ∈ ls :=
  List.mem_reverse.mp ((List.dropWhile_sublist _).subset (List.mem_reverse.mp h))

theorem declaredNames_joinLines {ls : List String} (h : ∀ l ∈ ls, OneLine l) :
    declaredNames (joinLines ls) = declaredByLines ls := by
  rw [declaredNames, joinLines_toList, declared_linesText fun l hl => h l (mem_of_mem_kept hl),
    declared_kept]

/-! ### The lines of definitions -/

variable {t : Target}

theorem oneLine_enum {e : Enumeration} (he : e.WellFormed) : OneLine e.definition := by
  have hvalues : OneLine (" | ".intercalate (e.values.map fun v => "'" ++ v.name ++ "'")) := by
    refine .intercalate (by decide) fun s hs => ?_
    obtain ⟨v, hv, rfl⟩ := List.mem_map.mp hs
    exact .append (.append (by decide) (oneLine_identifier (he.values v hv))) (by decide)
  have hhead : OneLine ("export type " ++ e.name) :=
    .append (by decide) (oneLine_identifier he.name)
  exact .append (.append (.append hhead (by decide)) hvalues) (by decide)

theorem oneLine_mappedType {s : String} (hs : isIdentifier s = true) : OneLine (mappedType s) := by
  have hmapped : ∀ k : Scalar, OneLine k.mapped := by
    intro k
    cases k <;> exact of_decide_eq_true rfl
  rw [mappedType]
  cases Scalar.ofKeyword? s with
  | none => exact oneLine_identifier hs
  | some k => exact hmapped k

theorem oneLine_field {f : Field} (hf : f.WellFormed) :
    OneLine ("  " ++ f.name ++ ": " ++ f.definedType t ++ ";") := by
  have hmapped := oneLine_mappedType hf.type.isIdentifier
  have htype : OneLine (f.definedType t) := by
    rw [Field.definedType]
    cases f.repeated with
    | false => exact hmapped
    | true =>
      cases t with
      | flow => exact .append (.append (by decide) hmapped) (by decide)
      | typescript => exact .append hmapped (by decide)
  have hname : OneLine ("  " ++ f.name) := .append (by decide) (oneLine_identifier hf.name)
  exact .append (.append (.append hname (by decide)) htype) (by decide)

theorem oneLine_message {m : Message} (hm : m.WellFormed) : ∀ l ∈ m.definition t, OneLine l := by
  have hhead : OneLine ("export type " ++ m.name) :=
    .append (by decide) (oneLine_identifier hm.name)
  intro l hl
  rw [Message.definition] at hl
  split at hl
  · rw [List.mem_singleton.mp hl]
    exact hhead.append (by decide)
  · rw [List.cons_append, List.mem_cons, List.mem_append, List.mem_singleton] at hl
    rcases hl with rfl | hl | rfl
    · exact hhead.append (by decide)
    · obtain ⟨f, hf, rfl⟩ := List.mem_map.mp hl
      exact oneLine_field (hm.fields f hf)
    · decide

/-- A line that declares a name, with a blank behind the name. -/
theorem declaredName_head {name rest : String} (hname : isIdentifier name = true)
    (hrest : rest.toList.head? = some ' ') :
    declaredName? ("export type " ++ name ++ rest).toList = some name := by
  obtain ⟨s, hs⟩ := List.head?_eq_some_iff.mp hrest
  rw [String.toList_append, String.toList_append, List.append_assoc, hs]
  exact declaredName_of_words hname s

theorem declaredName_enum {e : Enumeration} (he : e.WellFormed) :
    declaredName? e.definition.toList = some e.name := by
  show declaredName? ("export type " ++ e.name ++ " = " ++ _ ++ ";").toList = _
  rw [String.append_assoc, String.append_assoc]
  exact declaredName_head he.name (by rw [String.toList_append]; rfl)

theorem declaredName_field (f : Field) :
    declaredName? ("  " ++ f.name ++ ": " ++ f.definedType t ++ ";").toList = none := by
  simp only [String.toList_append, List.append_assoc]
  rfl

/-- The lines of a message declare its name only: those of fields begin with blanks. -/
theorem declared_message {m : Message} (hm : m.WellFormed) :
    declaredByLines (m.definition t) = [m.name] := by
  have hfields : declaredByLines
      (m.fields.map fun f => "  " ++ f.name ++ ": " ++ f.definedType t ++ ";") = [] := by
    refine List.filterMap_eq_nil_iff.mpr fun l hl => ?_
    obtain ⟨f, -, rfl⟩ := List.mem_map.mp hl
    exact declaredName_field f
  rw [Message.definition]
  split
  · exact declaredByLines_cons (declaredName_head hm.name (by decide)) []
  · rw [List.cons_append, declaredByLines_cons (declaredName_head hm.name (by decide)),
      declaredByLines_append, hfields]
    rfl

/-! ### The names of a tree -/

/-- The names of the enumerations that are nested in a message. -/
def Message.enumNames (m : Message) : List String := m.enums.map (·.name)

/-- The names that the definitions of a message bring: those of its enumerations and its own. -/
def Message.definedNames (m : Message) : List String := m.enumNames ++ [m.name]

/-- The names of the definitions of a file, in their order. -/
def SchemaFile.definedNames (f : SchemaFile) : List String :=
  f.enums.map (·.name) ++ f.messages.flatMap Message.definedNames

theorem spaced_append (a b : List (List String)) : spaced (a ++ b) = spaced a ++ spaced b :=
  List.flatMap_append

/-- A block of lines declares what its lines declare, whatever empty line follows. -/
theorem declared_spaced_cons (block : List String) (blocks : List (List String)) :
    declaredByLines (spaced (block :: blocks))
      = declaredByLines block ++ declaredByLines (spaced blocks) := by
  rw [spaced, List.flatMap_cons, declaredByLines_append, declaredByLines_append,
    show declaredByLines [""] = [] from rfl, List.append_nil, spaced]

theorem declared_enums {es : List Enumeration} (hes : ∀ e ∈ es, e.WellFormed) :
    declaredByLines (spaced (es.map fun e => [e.definition])) = es.map (·.name) := by
  induction es with
  | nil => rfl
  | cons e es ih =>
    have he := declaredName_enum (hes e List.mem_cons_self)
    rw [List.map_cons, declared_spaced_cons, declaredByLines_cons he,
      ih fun e' he' => hes e' (List.mem_cons_of_mem e he')]
    rfl

theorem declared_messages {ms : List Message} (hms : ∀ m ∈ ms, m.WellFormed) :
    declaredByLines (spaced (ms.flatMap fun m =>
      m.enums.map (fun e => [e.definition]) ++ [m.definition t]))
      = ms.flatMap Message.definedNames := by
  induction ms with
  | nil => rfl
  | cons m ms ih =>
    have hm := hms m List.mem_cons_self
    rw [List.flatMap_cons, List.flatMap_cons, List.append_assoc, spaced_append,
      declaredByLines_append, declared_enums hm.enums, List.singleton_append, declared_spaced_cons,
      declared_message hm, ih fun m' hm' => hms m' (List.mem_cons_of_mem m hm'), ← List.append_assoc]
    rfl

theorem oneLine_enums {es : List Enumeration} (hes : ∀ e ∈ es, e.WellFormed) :
    ∀ b ∈ es.map (fun e => [e.definition]), ∀ l ∈ b, OneLine l := by
  intro b hb l hl
  obtain ⟨e, he, rfl⟩ := List.mem_map.mp hb
  rw [List.mem_singleton.mp hl]
  exact oneLine_enum (hes e he)

theorem oneLine_blocks {f : SchemaFile} (hf : f.WellFormed) :
    ∀ b ∈ f.definitionBlocks t, ∀ l ∈ b, OneLine l := by
  intro b hb
  rcases List.mem_append.mp hb with hb | hb
  · exact oneLine_enums hf.enums b hb
  · obtain ⟨m, hm, hb⟩ := List.mem_flatMap.mp hb
    rcases List.mem_append.mp hb with hb | hb
    · exact oneLine_enums (hf.messages m hm).enums b hb
    · rw [List.mem_singleton.mp hb]
      exact oneLine_message (hf.messages m hm)

theorem oneLine_spaced {blocks : List (List String)} (h : ∀ b ∈ blocks, ∀ l ∈ b, OneLine l) :
    ∀ l ∈ spaced blocks, OneLine l := by
  intro l hl
  obtain ⟨b, hb, hl⟩ := List.mem_flatMap.mp hl
  rcases List.mem_append.mp hl with hl | hl
  · exact h b hb l hl
  · rw [List.mem_singleton.mp hl]
    decide

/-- **Definitions declare the names of the tree**, in the order of the definitions. -/
theorem declaredNames_definitions {f : SchemaFile} (hf : f.WellFormed) (hpath : f.path = none)
    (t : Target) : declaredNames (f.definitions t) = f.definedNames := by
  have hblocks : declaredByLines (spaced (f.definitionBlocks t)) = f.definedNames := by
    rw [SchemaFile.definitionBlocks, spaced_append, declaredByLines_append,
      declared_enums hf.enums, declared_messages hf.messages]
    rfl
  have hlines := oneLine_spaced (oneLine_blocks hf (t := t))
  have hheader : f.definitionHeader t = t.header := by
    rw [SchemaFile.definitionHeader, hpath, List.append_nil]
  rw [SchemaFile.definitions, hheader]
  cases t with
  | flow =>
    have hfirst : ∀ l ∈ ["// @flow", ""], OneLine l := by decide
    have hall : ∀ l ∈ ["// @flow", ""] ++ spaced (f.definitionBlocks .flow), OneLine l := by
      intro l hl
      rcases List.mem_append.mp hl with hl | hl
      · exact hfirst l hl
      · exact hlines l hl
    exact (declaredNames_joinLines hall).trans hblocks
  | typescript => exact (declaredNames_joinLines hlines).trans hblocks

/-! ### Names in their scopes -/

/-- Names are distinct at the top level and inside each message, and nested names differ from those at
the top level. -/
structure SchemaFile.Scoped (f : SchemaFile) : Prop where
  top : (f.messages.map (·.name) ++ f.enums.map (·.name)).Nodup
  nested : ∀ m ∈ f.messages, m.enumNames.Nodup
  apart : ∀ m ∈ f.messages, ∀ n ∈ m.enumNames,
    n ∉ f.messages.map (·.name) ∧ n ∉ f.enums.map (·.name)

theorem Message.enumNames_subset (m : Message) : m.enumNames ⊆ m.definedNames :=
  List.subset_append_left _ _

theorem Message.mem_definedNames {m : Message} {n : String} :
    n ∈ m.definedNames ↔ n ∈ m.enumNames ∨ n = m.name := by
  rw [Message.definedNames, List.mem_append, List.mem_singleton]

namespace SchemaFile.Scoped

variable {f : SchemaFile} (h : f.Scoped)
include h

theorem nodup_message : ∀ m ∈ f.messages, m.definedNames.Nodup := by
  intro m hm
  refine List.nodup_append.mpr ⟨h.nested m hm, List.nodup_singleton _, ?_⟩
  rintro n hn _ hname rfl
  rw [List.mem_singleton.mp hname] at hn
  exact (h.apart m hm _ hn).1 (List.mem_map_of_mem hm)

/-- Two messages of different names bring different names unless their enumerations do not. -/
theorem disjoint_definedNames {m m' : Message} (hm : m ∈ f.messages) (hm' : m' ∈ f.messages)
    (hname : m.name ≠ m'.name) (henums : m.enumNames.Disjoint m'.enumNames) :
    m.definedNames.Disjoint m'.definedNames := by
  intro n hn hn'
  rcases Message.mem_definedNames.mp hn with hn | rfl
  · rcases Message.mem_definedNames.mp hn' with hn' | rfl
    · exact henums hn hn'
    · exact (h.apart m hm _ hn).1 (List.mem_map_of_mem hm')
  · rcases Message.mem_definedNames.mp hn' with hn' | hn'
    · exact (h.apart m' hm' _ hn').1 (List.mem_map_of_mem hm)
    · exact hname hn'

theorem nodup_iff : f.definedNames.Nodup ↔
    f.messages.Pairwise fun m m' => m.enumNames.Disjoint m'.enumNames := by
  obtain ⟨hmessages, henums, htop⟩ := List.nodup_append.mp h.top
  constructor
  · intro hnodup
    obtain ⟨-, hnodup, -⟩ := List.nodup_append.mp hnodup
    refine (List.nodup_flatMap.mp hnodup).2.imp fun {m m'} hdisjoint => ?_
    exact List.disjoint_of_subset_left m.enumNames_subset
      (List.disjoint_of_subset_right m'.enumNames_subset hdisjoint)
  · intro hpairwise
    have hnames : f.messages.Pairwise fun m m' => m.name ≠ m'.name := List.pairwise_map.mp hmessages
    have hblocks : (f.messages.flatMap Message.definedNames).Nodup := by
      refine List.nodup_flatMap.mpr ⟨h.nodup_message, ?_⟩
      refine (hnames.and hpairwise).imp_of_mem fun {m m'} hm hm' hboth => ?_
      exact h.disjoint_definedNames hm hm' hboth.1 hboth.2
    refine List.nodup_append.mpr ⟨henums, hblocks, ?_⟩
    rintro n hn _ hn' rfl
    obtain ⟨m, hm, hn'⟩ := List.mem_flatMap.mp hn'
    rcases Message.mem_definedNames.mp hn' with hn' | rfl
    · exact (h.apart m hm n hn').2 hn
    · exact htop _ (List.mem_map_of_mem hm) _ hn rfl

end SchemaFile.Scoped

theorem definedNames_bare (f : SchemaFile) : f.bare.definedNames = f.definedNames := by
  have hmessage (m : Message) : m.bare.definedNames = m.definedNames := by
    show (m.enums.map Enumeration.bare).map (·.name) ++ [m.name] = _
    rw [List.map_map]
    rfl
  show (f.enums.map Enumeration.bare).map (·.name)
    ++ (f.messages.map Message.bare).flatMap Message.definedNames = _
  rw [List.map_map, List.flatMap_map]
  simp only [hmessage]
  rfl

theorem enumNames_bare (m : Message) : m.bare.enumNames = m.enumNames := by
  show (m.enums.map Enumeration.bare).map (·.name) = _
  rw [List.map_map]
  rfl

/-- Scopes are made of names, so spans do not matter. -/
theorem SchemaFile.Scoped.of_bare {f : SchemaFile} (h : f.bare.Scoped) : f.Scoped := by
  have hmessages : f.bare.messages.map (·.name) = f.messages.map (·.name) := List.map_map
  have henums : f.bare.enums.map (·.name) = f.enums.map (·.name) := List.map_map
  have hmem {m : Message} (hm : m ∈ f.messages) : m.bare ∈ f.bare.messages :=
    List.mem_map_of_mem hm
  refine ⟨?_, fun m hm => ?_, fun m hm n hn => ?_⟩
  · rw [← hmessages, ← henums]
    exact h.top
  · rw [← enumNames_bare]
    exact h.nested _ (hmem hm)
  · rw [← hmessages, ← henums]
    exact h.apart _ (hmem hm) n (enumNames_bare m ▸ hn)

/-- **When hoisting keeps names apart.**  In a tree that was parsed and whose names are distinct in their
scopes, the names that the definitions declare in either notation are distinct if and only if no two
messages nest enumerations of one name. -/
theorem declaredNames_nodup_iff {file src : String} {f : SchemaFile} (h : parse file src = .ok f)
    (hscoped : f.Scoped) (t : Target) : (declaredNames (f.definitions t)).Nodup ↔
      f.messages.Pairwise fun m m' => m.enumNames.Disjoint m'.enumNames := by
  obtain ⟨hpath, htext⟩ := mem_fileText_of_parse h
  rw [declaredNames_definitions (wellFormed_of_fileText htext) hpath]
  exact hscoped.nodup_iff

/-! ### Two messages -/

/-- A message with an enumeration and a field of this type. -/
def messageOfKind (name kind : String) : Message where
  name := name
  fields := [{ name := "kind", type := kind }]
  enums := [{ name := kind, values := [{ name := "NONE" }] }]

/-- Two such messages. -/
def pairOfMessages (first second : String) : SchemaFile where
  messages := [messageOfKind "A" first, messageOfKind "B" second]

theorem messageOfKind_wellFormed {name kind : String} (hname : isIdentifier name = true)
    (hkind : IsTypeName kind) (hne : kind ≠ "repeated") : (messageOfKind name kind).WellFormed := by
  have hfield : isIdentifier "kind" = true := by decide
  have hvalue : isIdentifier "NONE" = true := by decide
  refine ⟨hname, fun f hf => ?_, fun e he => ?_⟩
  · rw [List.mem_singleton.mp hf]
    exact ⟨hfield, hkind, fun _ => hne⟩
  · rw [List.mem_singleton.mp he]
    refine ⟨hkind.isIdentifier, List.cons_ne_nil _ _, fun v hv => ?_⟩
    rw [List.mem_singleton.mp hv]
    exact hvalue

/-- The canonical text of two messages is parsed to them. -/
theorem exists_parse_pair (first second : String) (hfirst : IsTypeName first)
    (hsecond : IsTypeName second) (hne : first ≠ "repeated" ∧ second ≠ "repeated") :
    ∃ f, parse memoryName (pairOfMessages first second).format = .ok f ∧
      f.Same (pairOfMessages first second) := by
  have hwell : (pairOfMessages first second).WellFormed := by
    refine ⟨fun m hm => ?_, fun e he => absurd he List.not_mem_nil⟩
    rcases List.mem_cons.mp hm with rfl | hm
    · exact messageOfKind_wellFormed (by decide) hfirst hne.1
    · rw [List.mem_singleton.mp hm]
      exact messageOfKind_wellFormed (by decide) hsecond hne.2
  exact parse_of_mem_fileText memoryName (format_mem_fileText hwell) rfl

/-- Enumerations of different names may be nested. -/
theorem declaredNames_nodup_pair : ∃ f,
    parse memoryName (pairOfMessages "Kind" "Sort").format = .ok f ∧ f.Scoped ∧
      (declaredNames (f.definitions .flow)).Nodup := by
  obtain ⟨f, hf, hsame⟩ := exists_parse_pair "Kind" "Sort"
    (.inr ⟨by decide, by decide⟩) (.inr ⟨by decide, by decide⟩) (by decide)
  have hscoped : f.Scoped := by
    refine .of_bare ?_
    rw [show f.bare = _ from hsame]
    exact ⟨by decide, by decide, by decide⟩
  refine ⟨f, hf, hscoped, (declaredNames_nodup_iff hf hscoped .flow).mpr ?_⟩
  have hpairwise : f.bare.messages.Pairwise fun m m' => m.enumNames.Disjoint m'.enumNames := by
    rw [show f.bare = _ from hsame]
    refine List.pairwise_cons.mpr ⟨fun m hm => ?_, List.pairwise_singleton _ _⟩
    rw [List.mem_singleton.mp hm]
    exact List.disjoint_left.mpr (by decide)
  exact (List.pairwise_map.mp hpairwise).imp fun {m m'} h => by
    rwa [enumNames_bare, enumNames_bare] at h

/-- Two messages with enumerations of one name. -/
def collidingText : String :=
  "message A {
  Kind kind = 1;
  enum Kind {
    NONE = 0;
  }
}

"
    ++ "message B {
  Kind kind = 1;
  enum Kind {
    NONE = 0;
  }
}
"

theorem pairOfMessages_format : (pairOfMessages "Kind" "Kind").format = collidingText := by
  decide +kernel

/-- **Hoisted names collide.**  Each message keeps to its own scope, and both notations declare the name
of their enumerations twice. -/
theorem declaredNames_collide : ∃ f, parse memoryName collidingText = .ok f ∧ f.Scoped ∧
    ∀ t, declaredNames (f.definitions t) = ["Kind", "A", "Kind", "B"] ∧
      ¬ (declaredNames (f.definitions t)).Nodup := by
  obtain ⟨f, hf, hsame⟩ := exists_parse_pair "Kind" "Kind"
    (.inr ⟨by decide, by decide⟩) (.inr ⟨by decide, by decide⟩) (by decide)
  rw [pairOfMessages_format] at hf
  obtain ⟨hpath, htext⟩ := mem_fileText_of_parse hf
  have hscoped : f.Scoped := by
    refine .of_bare ?_
    rw [show f.bare = _ from hsame]
    exact ⟨by decide, by decide, by decide⟩
  have hnames (t : Target) : declaredNames (f.definitions t) = ["Kind", "A", "Kind", "B"] := by
    rw [declaredNames_definitions (wellFormed_of_fileText htext) hpath, ← definedNames_bare,
      show f.bare = _ from hsame]
    decide
  refine ⟨f, hf, hscoped, fun t => ⟨hnames t, ?_⟩⟩
  rw [hnames]
  decide

end MessageIdl.Schema
