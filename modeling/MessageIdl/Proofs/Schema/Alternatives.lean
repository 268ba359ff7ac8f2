import MessageIdl.Proofs.Peg.Reordering
import MessageIdl.Proofs.Schema.Suggestions

/-!
# The order of alternatives

Nothing that a text says about its tree or its error depends on the order in which the reader tries the
units of a gap, the keywords of types, the members of a message or the declarations of a file.  Only the
name has to stay behind the keywords.

* `Apart`: languages whose texts do not begin like each other.
* `Offers.exclusive`: alternatives that pass texts of such languages exclude each other.
* `takes_typedName`, `field_apart_enum`: a field and an enumeration may begin alike up to the sign behind
  the name.
* `AlternativeOrder`: an order of all these alternatives, and the grammar with that order.
* `parse_reordered`: the trees and the errors are the same.
-/

namespace MessageIdl.Schema

open MessageIdl.Peg MessageIdl.Source
open scoped Computability

variable {lines : LineIndex} {L M : Language Char}

/-! ### Languages apart -/

/-- No text begins both with a text of `L` and with one of `M`. -/
def Apart (L M : Language Char) : Prop := ∀ t, ∀ x ∈ L, ∀ y ∈ M, x <+: t → ¬ y <+: t

theorem Apart.symm (h : Apart L M) : Apart M L := fun t y hy x hx front front' => h t x hx y hy front' front

/-- Each text of `L` begins with one of the words. -/
def Begins (ws : List (List Char)) (L : Language Char) : Prop := ∀ x ∈ L, ∃ w ∈ ws, w <+: x

theorem Begins.mul {ws : List (List Char)} (h : Begins ws L) (M : Language Char) : Begins ws (L * M) := by
  intro z hz
  obtain ⟨x, hx, y, -, rfl⟩ := Language.mem_mul.mp hz
  obtain ⟨w, hw, front⟩ := h x hx
  exact ⟨w, hw, front.trans (List.prefix_append x y)⟩

theorem Begins.iSup {A : Type} {textOf : A → Language Char} {ws : List (List Char)}
    (h : ∀ a, Begins ws (textOf a)) : Begins ws (⨆ a, textOf a) := by
  intro x hx
  obtain ⟨a, hx⟩ := Language.mem_iSup.mp hx
  exact h a x hx

theorem begins_word (w : String) : Begins [w.toList] (word w) := by
  intro x hx
  cases mem_word.mp hx
  exact ⟨_, List.mem_singleton_self _, List.prefix_rfl⟩

/-- Texts that begin with words none of which begins another. -/
theorem Begins.apart {ws ws' : List (List Char)} (h : Begins ws L) (h' : Begins ws' M)
    (different : ∀ w ∈ ws, ∀ w' ∈ ws', ¬ w <+: w' ∧ ¬ w' <+: w) : Apart L M := by
  intro t x hx y hy front front'
  obtain ⟨w, hw, begins⟩ := h x hx
  obtain ⟨w', hw', begins'⟩ := h' y hy
  obtain ⟨not_before, not_behind⟩ := different w hw w' hw'
  rcases List.prefix_or_prefix_of_prefix (begins.trans front) (begins'.trans front') with before | behind
  · exact not_before before
  · exact not_behind behind

/-! ### Alternatives that exclude each other -/

/-- Whatever follows what was passed, a text of the language stands at its front, if there is one more
line feed. -/
theorem Passed.front {u rest : List Char} (h : Passed L u rest) (z : List Char) :
    ∃ x ∈ L, x <+: u ++ (z ++ ['\n']) := by
  rcases h with inside | ⟨-, -, ended⟩
  · exact ⟨u, inside, List.prefix_append u _⟩
  · obtain ⟨s, others, line, first⟩ := exists_line (t := z ++ ['\n']) (by simp)
    refine ⟨_, ended s line, ?_⟩
    rw [first]
    exact ⟨others, by simp⟩

/-- An alternative that passes texts of `L`, that fails on the way to such texts, that raises no fault, and
that refers to rules of the grammar. -/
structure Offers (lines : LineIndex) (e : Expr Node) (L : Language Char) : Prop where
  guides : Guides rules.find lines e L
  ensures : Ensures rules.find lines e fun _ _ _ => True
  defined : ∀ ref ∈ e.refs, ∃ body, rules.find ref = some body

namespace Offers

variable {a b : Expr Node}

theorem of_rule {name : String} {body : Expr Node} {R : Cursor → Cursor → Value Node → Prop}
    (found : rules.find name = some body) (guides : Guides rules.find lines (.ref name) L)
    (ensures : Ensures rules.find lines (.ref name) R) : Offers lines (.ref name) L where
  guides := guides
  ensures := ensures.imp fun _ _ _ _ _ => trivial
  defined := by
    intro ref inside
    cases List.mem_singleton.mp inside
    exact ⟨body, found⟩

theorem passOn (h : Offers lines a L) : Offers lines (boundBody passOn [a]) L where
  guides := h.guides.row_one.action
  ensures := ensures_passOn h.ensures
  defined := by
    rw [Expr.refs_boundBody_one]
    exact h.defined

/-- **An alternative excludes another one** if no text begins like both of them.  The other one has not
matched, since the text would begin like both.  Nor has it come as far as the first one, since what it
expects there would go on to such a text. -/
theorem excludes (ha : Offers lines a L) (hb : Offers lines b M) (apart : Apart L M) :
    Excludes rules.find lines a b := by
  intro c o yields present
  rcases ha.ensures c o yields with rfl | ⟨stop, v, rfl, -⟩
  · exact absurd rfl present
  obtain ⟨u, text, passed⟩ := ha.guides.matched c stop v yields
  refine ⟨?_, fun stop' v' same pos label misses => ?_⟩
  · obtain ⟨o', yields'⟩ := Parser.exists_outcome parser_eq_rules
      not_leftRecursive lines hb.defined c
    rcases hb.ensures c o' yields' with rfl | ⟨stop', v', rfl, -⟩
    · exact yields'
    · obtain ⟨u', text', passed'⟩ := hb.guides.matched c stop' v' yields'
      obtain ⟨x, hx, front⟩ := passed.front stop.rest
      obtain ⟨y, hy, front'⟩ := passed'.front stop'.rest
      rw [← List.append_assoc, ← text] at front
      rw [← List.append_assoc, ← text'] at front'
      exact absurd front' (apart _ x hx y hy front)
  · cases same
    obtain ⟨s, r, w, y, text', there, -, inside⟩ := hb.guides.missed c pos label misses
    rw [yields.reaches.eq_advance text, Cursor.advance_offset, there, Nat.add_lt_add_iff_left]
    by_contra behind
    obtain ⟨s', rfl⟩ : u <+: s := List.prefix_of_prefix_length_le ⟨_, text.symm⟩ ⟨_, text'.symm⟩
      (Nat.le_of_not_lt behind)
    obtain ⟨x, hx, front⟩ := passed.front (s' ++ (w ++ y))
    refine apart _ x hx _ inside front ⟨['\n'], ?_⟩
    simp only [List.append_assoc]

theorem exclusive (ha : Offers lines a L) (hb : Offers lines b M) (apart : Apart L M) :
    Exclusive rules.find lines a b :=
  ⟨ha.excludes hb apart, hb.excludes ha apart.symm⟩

end Offers

/-! ### The units of a gap -/

theorem guides_blank : Guides rules.find lines blank blankText where
  inhabited := ⟨[' '], ' ', by decide, rfl⟩
  matched c stop v matched := by
    obtain ⟨n, scanned, rfl, -⟩ := (Ensures.pattern blankPattern).matched matched
    exact .of_mem (blank_taken scanned) (List.take_append_drop n c.rest).symm
  missed := .pattern (w := [' ']) (y := []) (by simp [labelledPatterns]) rfl (by decide)
    ⟨' ', by decide, rfl⟩

/-- A comment at the end of the input may go on to the end of its line. -/
theorem guides_lineComment : Guides rules.find lines lineComment lineCommentText where
  inhabited := ⟨_, mem_lineCommentText (s := []) (by decide)⟩
  matched c stop v matched := by
    obtain ⟨n, scanned, rfl, -⟩ := (Ensures.pattern lineCommentPattern).matched matched
    rcases lineComment_taken scanned with inside | ⟨⟨s, line, text⟩, nothing⟩
    · exact .of_mem inside (List.take_append_drop n c.rest).symm
    · refine ⟨c.rest, ?_, .inr ⟨nothing, by rw [text]; exact List.cons_ne_nil _ _, fun w more => ?_⟩⟩
      · rw [Cursor.advance_rest, nothing, List.append_nil]
      · have ended := mem_lineCommentText (s := s ++ w) (by simp [line, more])
        rw [text]
        simpa only [List.cons_append, List.append_assoc] using ended
  missed := .pattern (w := ['/', '/']) (y := ['\n']) (by simp [labelledPatterns]) rfl (by decide)
    (mem_lineCommentText (s := []) (by decide))

theorem offers_blank : Offers lines blank blankText where
  guides := guides_blank
  ensures := blank_ensures.imp fun _ _ _ _ _ => trivial
  defined := nofun

theorem offers_lineComment : Offers lines lineComment lineCommentText where
  guides := guides_lineComment
  ensures := lineComment_ensures.imp fun _ _ _ _ _ => trivial
  defined := nofun

theorem offers_blockComment : Offers lines blockComment blockCommentText where
  guides := guides_blockComment
  ensures := blockComment_ensures.imp fun _ _ _ _ _ => trivial
  defined := nofun

theorem begins_blankText : Begins (blanks.map fun c => [c]) blankText := by
  rintro _ ⟨c, inside, rfl⟩
  exact ⟨[c], List.mem_map.mpr ⟨c, inside, rfl⟩, List.prefix_rfl⟩

theorem begins_lineCommentText : Begins [['/', '/']] lineCommentText := by
  refine Begins.mul (L := openCommentText) ?_ _
  rintro _ ⟨s, -, rfl⟩
  exact ⟨_, List.mem_singleton_self _, List.prefix_append _ _⟩

theorem begins_blockCommentText : Begins [['/', '*']] blockCommentText := by
  rintro _ ⟨s, -, rfl⟩
  exact ⟨_, List.mem_singleton_self _, List.prefix_append _ _⟩

theorem units_exclusive (lines : LineIndex) :
    [blank, lineComment, blockComment].Pairwise (Exclusive rules.find lines) := by
  have blank_line : Exclusive rules.find lines blank lineComment :=
    offers_blank.exclusive offers_lineComment
      (begins_blankText.apart begins_lineCommentText (by decide))
  have blank_block : Exclusive rules.find lines blank blockComment :=
    offers_blank.exclusive offers_blockComment
      (begins_blankText.apart begins_blockCommentText (by decide))
  have line_block : Exclusive rules.find lines lineComment blockComment :=
    offers_lineComment.exclusive offers_blockComment
      (begins_lineCommentText.apart begins_blockCommentText (by decide))
  simp only [List.pairwise_cons, List.forall_mem_cons, List.not_mem_nil, false_imp_iff, implies_true,
    List.Pairwise.nil, and_true]
  exact ⟨⟨blank_line, blank_block⟩, line_block⟩

/-! ### The keywords of types -/

theorem offers_keyword {k : Scalar} (listed : k ∈ Scalar.all) :
    Offers lines (boundBody passOn [.literal k.keyword]) (word k.keyword) := by
  have line : ∀ k ∈ Scalar.all, '\n' ∉ k.keyword.toList := by decide
  refine Offers.passOn ⟨.literal k.keyword (line k listed), ?_, nofun⟩
  exact (Ensures.literal k.keyword).imp fun _ _ _ _ _ => trivial

theorem keywords_apart {k k' : Scalar} (listed : k ∈ Scalar.all) (listed' : k' ∈ Scalar.all)
    (different : k ≠ k') : Apart (word k.keyword) (word k'.keyword) := by
  intro t x hx y hy front front'
  cases mem_word.mp hx
  cases mem_word.mp hy
  exact different (keyword_unique listed listed' front front')

theorem keywords_exclusive (lines : LineIndex) :
    (Scalar.all.map fun k => boundBody passOn [.literal k.keyword]).Pairwise
      (Exclusive rules.find lines) := by
  have nodup : Scalar.all.Nodup := by decide
  refine List.pairwise_map.mpr (List.Pairwise.imp_of_mem (fun listed listed' different => ?_) nodup)
  exact (offers_keyword listed).exclusive (offers_keyword listed')
    (keywords_apart listed listed' different)

/-! ### Fields and enumerations -/

/-- A type with its modifier and a name behind it, as in front of the number of a field. -/
def typedNameText (b : Bool) (type s : String) : Language Char :=
  modifierText b * (typeText b type * (gap1Text * (nameText s * gapText)))

/-- What the rule of fields reads in front of the sign behind the name. -/
def typedNameRow : List (Expr Node) := [.optional (.ref "Repeated"), .ref "FieldType", gap1, name, gap]

/-- A typed name is taken in front of any sign that belongs to no name and begins no gap. -/
theorem takes_typedName {b : Bool} {type s : String} {x : List Char} (hx : x ∈ typedNameText b type s)
    {d : Char} (sign : isNamePart d = false ∧ d ∉ blanks ∧ d ≠ '/') (t : List Char) :
    TakesRow rules.find lines typedNameRow (x ++ d :: t) (d :: t) fun _ => True := by
  obtain ⟨m, hm, _, h₁, rfl⟩ := Language.mem_mul.mp hx
  obtain ⟨_, ⟨htype, hne, rfl⟩, _, h₂, rfl⟩ := Language.mem_mul.mp h₁
  obtain ⟨g₁, hg₁, _, h₃, rfl⟩ := Language.mem_mul.mp h₂
  obtain ⟨_, ⟨hname, rfl⟩, g₂, hg₂, rfl⟩ := Language.mem_mul.mp h₃
  simp only [List.append_assoc]
  have hmod (t : List Char) : Takes rules.find lines (.optional (.ref "Repeated"))
      (m ++ (type.toList ++ (g₁ ++ t))) (type.toList ++ (g₁ ++ t)) _ :=
    takes_modifier hm htype hne (ends_gap1 hg₁ t)
  have hrow := (hmod _).row_cons <|
    (takes_fieldType htype (ends_gap1 hg₁ _)).row_cons <|
    (takes_gap1 (Reads.of_mem hg₁ _) (solid_name hname _)).row_cons <|
    (takes_name hname (ends_gap hg₂ (ends_cons sign.1))).row_cons <|
    (takes_gap (Reads.of_mem hg₂ (d :: t)) (solid_cons sign.2)).row_cons .nil
  exact Takes.imp hrow fun v hv => hv.imp fun xs hxs => ⟨hxs.1, trivial⟩

/-- The sign behind a typed name is told by the text. -/
theorem sign_unique {b b' : Bool} {type type' s s' : String} {x x' t : List Char} {d d' : Char}
    (hx : x ∈ typedNameText b type s) (hx' : x' ∈ typedNameText b' type' s')
    (sign : isNamePart d = false ∧ d ∉ blanks ∧ d ≠ '/')
    (sign' : isNamePart d' = false ∧ d' ∉ blanks ∧ d' ≠ '/') (front : x ++ [d] <+: t)
    (front' : x' ++ [d'] <+: t) : d = d' := by
  obtain ⟨r, rfl⟩ := front
  obtain ⟨r', same⟩ := front'
  rw [List.append_assoc, List.append_assoc, List.singleton_append, List.singleton_append] at same
  let lines : LineIndex := .ofText memoryName []
  have row : TakesRow rules.find lines typedNameRow _ _ _ := takes_typedName hx sign r
  have row' : TakesRow rules.find lines typedNameRow _ _ _ := takes_typedName hx' sign' r'
  obtain ⟨stop, _, yields, rest, -⟩ := row ⟨0, _⟩ rfl
  obtain ⟨stop', _, yields', rest', -⟩ := row' ⟨0, _⟩ rfl
  rw [same] at yields'
  cases yields.deterministic yields'
  rw [rest] at rest'
  exact (List.cons.inj rest').1

theorem fieldText_front {f : Field} {y : List Char} (hy : y ∈ fieldText f) :
    ∃ x ∈ typedNameText f.repeated f.type f.name, x ++ ['='] <+: y := by
  have parts : fieldText f = typedNameText f.repeated f.type f.name * word "=" *
      (gapText * numberedText) := by
    simp only [fieldText, typedNameText, mul_assoc]
  rw [parts] at hy
  obtain ⟨_, h, z, -, rfl⟩ := Language.mem_mul.mp hy
  obtain ⟨x, hx, _, rfl, rfl⟩ := Language.mem_mul.mp h
  exact ⟨x, hx, List.prefix_append _ z⟩

/-- The head of an enumeration is a typed name, whose type is the word of enumerations. -/
theorem enumText_front {e : Enumeration} {y : List Char} (hy : y ∈ enumText e) :
    ∃ x ∈ typedNameText false "enum" e.name, x ++ ['\x7b'] <+: y := by
  have parts : enumText e = word "enum" * (gap1Text * (nameText e.name * gapText)) * word "\x7b" *
      (gapText * (valuesText e.values * (word "\x7d" * gapText))) := by
    simp only [enumText, bodyText, mul_assoc]
  rw [parts] at hy
  obtain ⟨_, h, z, -, rfl⟩ := Language.mem_mul.mp hy
  obtain ⟨_, head, _, rfl, rfl⟩ := Language.mem_mul.mp h
  obtain ⟨_, rfl, x, hx, rfl⟩ := Language.mem_mul.mp head
  have type : "enum".toList ∈ typeText false "enum" := ⟨enum_isTypeName, fun _ => by decide, rfl⟩
  have none : [] ∈ modifierText false := Language.nil_mem_one
  exact ⟨_, Language.append_mem_mul none (Language.append_mem_mul type hx), List.prefix_append _ z⟩

/-- **No text begins like a field and like an enumeration**, though `enum` may be the type of a field. -/
theorem field_apart_enum : Apart (⨆ f, fieldText f) (⨆ e, enumText e) := by
  intro t x hx y hy front front'
  obtain ⟨f, hx⟩ := Language.mem_iSup.mp hx
  obtain ⟨e, hy⟩ := Language.mem_iSup.mp hy
  obtain ⟨head, typed, before⟩ := fieldText_front hx
  obtain ⟨head', typed', before'⟩ := enumText_front hy
  have same := sign_unique typed typed' (by decide) (by decide) (before.trans front)
    (before'.trans front')
  exact absurd same (by decide)

theorem message_apart_enum : Apart (⨆ m, messageText m) (⨆ e, enumText e) :=
  Begins.apart (.iSup fun _ => ((begins_word "message").mul _).mul _)
    (.iSup fun _ => ((begins_word "enum").mul _).mul _) (by decide)

theorem offers_field : Offers lines (.ref "FieldDefinition") (⨆ f, fieldText f) :=
  .of_rule find_fieldRule guides_field field_ensures

theorem offers_enum : Offers lines (.ref "EnumDefinition") (⨆ e, enumText e) :=
  .of_rule find_enumRule guides_enum enum_ensures

theorem offers_message : Offers lines (.ref "MessageDefinition") (⨆ m, messageText m) :=
  .of_rule find_messageRule guides_message message_ensures

/-! ### Grammars with another order -/

/-- An order of the alternatives of a gap, a type, a member and a declaration.  The name, which is the last
alternative of a type, is none of them. -/
structure AlternativeOrder where
  units : List (Expr Node)
  scalars : List Scalar
  members : List String
  declarations : List String
  units_perm : units.Perm [blank, lineComment, blockComment]
  scalars_perm : scalars.Perm Scalar.all
  members_perm : members.Perm ["FieldDefinition", "EnumDefinition"]
  declarations_perm : declarations.Perm ["MessageDefinition", "EnumDefinition"]

namespace AlternativeOrder

/-- A rule that passes on what any of the rules `refs` builds. -/
def eitherOf (head : String) (refs : List String) : Rule Node :=
  ruleOf head (refs.map fun ref => ([.ref ref], passOn))

/-- The grammar of schemas with its alternatives in this order. -/
def grammar (o : AlternativeOrder) : Grammar Node where
  start := "ProtocolFile"
  rules :=
    [ruleOf "_" [([.choice o.units], dropGap)],
      repeatedRule,
      ruleOf "FieldType" (o.scalars.map (fun k => ([.literal k.keyword], passOn)) ++ [([name], passOn)]),
      fieldRule, enumValueRule, enumRule,
      eitherOf "MessageInternal" o.members,
      messageRule,
      eitherOf "MessageOrEnum" o.declarations,
      fileRule]

/-- The order in which the alternatives are written. -/
def written : AlternativeOrder where
  units := [blank, lineComment, blockComment]
  scalars := Scalar.all
  members := ["FieldDefinition", "EnumDefinition"]
  declarations := ["MessageDefinition", "EnumDefinition"]
  units_perm := .refl _
  scalars_perm := .refl _
  members_perm := .refl _
  declarations_perm := .refl _

theorem written_grammar : written.grammar = Schema.grammar := rfl

/-- The alternatives from the last one to the first one. -/
def reverse (o : AlternativeOrder) : AlternativeOrder where
  units := o.units.reverse
  scalars := o.scalars.reverse
  members := o.members.reverse
  declarations := o.declarations.reverse
  units_perm := (List.reverse_perm _).trans o.units_perm
  scalars_perm := (List.reverse_perm _).trans o.scalars_perm
  members_perm := (List.reverse_perm _).trans o.members_perm
  declarations_perm := (List.reverse_perm _).trans o.declarations_perm

example : (written.reverse.grammar.rule? "_").map Rule.display
    = some "_ = ((\"/*\" <comment text> \"*/\") / <comment> / <whitespace>) \x7bact_none\x7d" := by
  decide

end AlternativeOrder

theorem ruleBody_eq_choice {es : List (Expr Node)} (several : 2 ≤ es.length) :
    ruleBody es = .choice es := by
  match es, several with
  | _ :: _ :: _, _ => rfl

theorem grammar_plain : grammar.plain = true := by decide

theorem rules_plain (name : String) (body : Expr Node) (h : rules.find name = some body) :
    body.plain = true :=
  Grammar.plain_find parser_eq_rules grammar_plain name body h

section Order

variable (o : AlternativeOrder)

theorem gap_standsFor :
    StandsFor rules.find gapRule.body (ruleOf "_" [([.choice o.units], dropGap)]).body := by
  have h : StandsFor rules.find (.choice ([blank, lineComment, blockComment] ++ []))
      (.choice (o.units ++ [])) := .choice_perm o.units_perm.symm units_exclusive rfl
  rw [List.append_nil, List.append_nil] at h
  exact h.boundBody rules_plain dropGap

theorem fieldType_standsFor : StandsFor rules.find fieldTypeRule.body
    (ruleOf "FieldType"
      (o.scalars.map (fun k => ([.literal k.keyword], passOn)) ++ [([name], passOn)])).body := by
  have h : StandsFor rules.find (.choice (typeAlternatives Scalar.all))
      (.choice (typeAlternatives o.scalars)) :=
    .choice_perm (o.scalars_perm.symm.map _) keywords_exclusive (by decide)
  have body : (ruleOf "FieldType" (o.scalars.map (fun k => ([.literal k.keyword], passOn)) ++
      [([name], passOn)])).body = .choice (typeAlternatives o.scalars) := by
    simp only [ruleOf, List.map_append, List.map_map]
    refine ruleBody_eq_choice ?_
    simp [o.scalars_perm.length_eq, Scalar.all]
  rw [body]
  exact h

/-- Two rules that exclude each other may be tried in any order. -/
theorem either_standsFor (head : String) {refs refs' : List String} (perm : refs.Perm refs')
    (several : 2 ≤ refs.length)
    (exclusive : ∀ lines, refs.Pairwise fun a b => Exclusive rules.find lines
      (boundBody passOn [.ref a]) (boundBody passOn [.ref b])) :
    StandsFor rules.find (AlternativeOrder.eitherOf head refs).body
      (AlternativeOrder.eitherOf head refs').body := by
  have body {refs : List String} (several : 2 ≤ refs.length) :
      (AlternativeOrder.eitherOf head refs).body
        = .choice (refs.map (fun a => boundBody passOn [.ref a]) ++ []) := by
    rw [List.append_nil]
    simp only [AlternativeOrder.eitherOf, ruleOf, List.map_map]
    exact ruleBody_eq_choice (by simpa using several)
  rw [body several, body (perm.length_eq ▸ several)]
  refine .choice_perm (perm.map _) (fun lines => List.pairwise_map.mpr (exclusive lines)) ?_
  refine Expr.plain_choice.mpr ⟨?_, ?_⟩
  · rw [List.append_nil, ne_eq, List.map_eq_nil_iff]
    exact List.ne_nil_of_length_pos (by omega)
  · simp [boundBody, Expr.plain, Expr.plainParts]

/-- The rules correspond one by one, and each one stands for the one that it replaces. -/
theorem rules_correspond :
    List.Forall₂ (fun r r' => r.name = r'.name ∧ StandsFor rules.find r.body r'.body) grammar.rules
      o.grammar.rules := by
  have kept {r : Rule Node} (plain : r.body.plain = true) :
      r.name = r.name ∧ StandsFor rules.find r.body r.body := ⟨rfl, .refl plain⟩
  have members := either_standsFor "MessageInternal" o.members_perm.symm (by decide) fun lines =>
    List.pairwise_pair.mpr (offers_field.passOn.exclusive offers_enum.passOn field_apart_enum)
  have declarations := either_standsFor "MessageOrEnum" o.declarations_perm.symm (by decide) fun lines =>
    List.pairwise_pair.mpr (offers_message.passOn.exclusive offers_enum.passOn message_apart_enum)
  exact .cons ⟨rfl, gap_standsFor o⟩ <| .cons (kept rfl) <| .cons ⟨rfl, fieldType_standsFor o⟩ <|
    .cons (kept rfl) <| .cons (kept rfl) <| .cons (kept rfl) <| .cons ⟨rfl, members⟩ <|
    .cons (kept rfl) <| .cons ⟨rfl, declarations⟩ <| .cons (kept rfl) .nil

end Order

/-! ### Parsing under another order -/

/-- **The order of alternatives does not matter.**  With the units of a gap, the keywords of types, the
members of messages and the declarations of files in any other order, each text has the same tree, with
the same spans, or is rejected by the same error. -/
theorem parse_reordered (o : AlternativeOrder) (file src : String) :
    parseUnder o.grammar file src = parse file src := by
  have start : o.grammar.start = grammar.start := rfl
  obtain ⟨p, checked, same⟩ :=
    Grammar.parse_corresponds parser_eq_rules grammar_plain rules_below start (rules_correspond o)
  rw [parseUnder_eq checked, parse_eq, same]

end MessageIdl.Schema
